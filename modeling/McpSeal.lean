import McpSeal.Foundation.Ledger
import McpSeal.Foundation.Radix
import McpSeal.Foundation.Scanner
import McpSeal.Data.NatText
import McpSeal.Data.Json
import McpSeal.Data.JsonParser
import McpSeal.SealV2.Escape
import McpSeal.SealV2.Ast
import McpSeal.SealV2.Parser
import McpSeal.SealV2.Serialization
import McpSeal.SealV2.Lexical
import McpSeal.SealV2.Crypto
import McpSeal.SealV2.Request
import McpSeal.SealV2.Approval
import McpSeal.SealV2.Validation
import McpSeal.SealV2.SignedMessage
import McpSeal.SealV2.ReplayStore
import McpSeal.Host.Ffi
import McpSeal.Host.Session
import McpSeal.C.SealEd25519
import McpSeal.Host.ClockRobustness
import McpSeal.SealV2.RoundTrip
import McpSeal.Host.Authorization
import McpSeal.Host.Base64
import McpSeal.Host.Serve
import McpSeal.Host.Challenge
import McpSeal.Data.JsonRoundTrip
import McpSeal.SealV2.Normalization
import McpSeal.Foundation.Grants
import McpSeal.Seal.Channel
import McpSeal.Seal.Classify
import McpSeal.Seal.GoldenPath
import McpSeal.Seal.Refinement
import McpSeal.Foundation.Rounding
import McpSeal.Seal.ServerView
import McpSeal.SealV2.NonceLedger
