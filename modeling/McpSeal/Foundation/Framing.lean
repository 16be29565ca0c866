import Mathlib.Data.List.Basic
import Mathlib.Logic.Function.Basic
set_option autoImplicit false

/-!
# Foundation: self-delimiting frames

The end of a self-delimiting frame can be told without looking past it.  A
concatenation of such frames is read back in one way only.  A length prefix,
closed by a separator that no length contains, makes a frame self-delimiting.

Where a frame has room for some things only, it is self-delimiting on these.
Such frames are put together: in sequence, behind a count, behind a tag.
-/

namespace McpSeal.Foundation.Framing

variable {α σ : Type}

/-- In front of any tails, two frames agree only if they frame the same. -/
def SelfDelimiting (frame : α → List σ) : Prop :=
  ∀ a b tail tail', frame a ++ tail = frame b ++ tail' → a = b ∧ tail = tail'

/-- **Concatenation.**  A concatenation of nonempty self-delimiting frames
determines what is framed. -/
theorem SelfDelimiting.flatMap_inj {frame : α → List σ} (h : SelfDelimiting frame)
    (hne : ∀ a, frame a ≠ []) {as bs : List α} (heq : as.flatMap frame = bs.flatMap frame) :
    as = bs := by
  induction as generalizing bs with
  | nil =>
      cases bs with
      | nil => rfl
      | cons b rest =>
          rw [List.flatMap_nil, List.flatMap_cons] at heq
          exact absurd (List.append_eq_nil_iff.mp heq.symm).1 (hne b)
  | cons a rest ih =>
      cases bs with
      | nil =>
          rw [List.flatMap_nil, List.flatMap_cons] at heq
          exact absurd (List.append_eq_nil_iff.mp heq).1 (hne a)
      | cons b rest' =>
          rw [List.flatMap_cons, List.flatMap_cons] at heq
          obtain ⟨rfl, htail⟩ := h a b _ _ heq
          rw [ih htail]

/-- The first separator is found in one place only. -/
theorem append_sep_inj {sep : σ} {front front' back back' : List σ} (hfront : sep ∉ front)
    (hfront' : sep ∉ front') (h : front ++ sep :: back = front' ++ sep :: back') :
    front = front' ∧ back = back' := by
  induction front generalizing front' with
  | nil =>
      cases front' with
      | nil => exact ⟨rfl, (List.cons.inj h).2⟩
      | cons c rest' => exact absurd ((List.cons.inj h).1 ▸ List.mem_cons_self) hfront'
  | cons c rest ih =>
      cases front' with
      | nil => exact absurd ((List.cons.inj h).1 ▸ List.mem_cons_self) hfront
      | cons c' rest' =>
          obtain ⟨rfl, hrest⟩ := List.cons.inj h
          obtain ⟨rfl, hback⟩ := ih (List.not_mem_of_not_mem_cons hfront)
            (List.not_mem_of_not_mem_cons hfront') hrest
          exact ⟨rfl, hback⟩

/-- A body behind its length and a separator. -/
def lengthPrefixed (header : Nat → List σ) (sep : σ) (body : List σ) : List σ :=
  header body.length ++ sep :: body

theorem lengthPrefixed_ne_nil (header : Nat → List σ) (sep : σ) (body : List σ) :
    lengthPrefixed header sep body ≠ [] :=
  List.append_ne_nil_of_right_ne_nil _ (List.cons_ne_nil _ _)

theorem selfDelimiting_lengthPrefixed {header : Nat → List σ} {sep : σ}
    (hinj : Function.Injective header) (hsep : ∀ n, sep ∉ header n) :
    SelfDelimiting (lengthPrefixed header sep) := by
  intro a b tail tail' heq
  have hsplit : header a.length ++ sep :: (a ++ tail) = header b.length ++ sep :: (b ++ tail') := by
    simpa only [lengthPrefixed, List.append_assoc, List.cons_append] using heq
  -- the first separator ends the length, and the length ends the body
  obtain ⟨hheader, hrest⟩ := append_sep_inj (hsep _) (hsep _) hsplit
  exact List.append_inj hrest (hinj hheader)

/-! ## Frames with bounded room -/

/-- Frames of things with `P` are told apart in front of any tails. -/
def SelfDelimitingOn (P : α → Prop) (frame : α → List σ) : Prop :=
  ∀ a b, P a → P b → ∀ tail tail', frame a ++ tail = frame b ++ tail' → a = b ∧ tail = tail'

/-- Frames of one width, told apart by what they frame. -/
theorem selfDelimitingOn_fixed {width : Nat} {P : α → Prop} {frame : α → List σ}
    (hwidth : ∀ a, P a → (frame a).length = width)
    (hinj : ∀ a b, P a → P b → frame a = frame b → a = b) : SelfDelimitingOn P frame := by
  intro a b ha hb tail tail' heq
  obtain ⟨hframe, htail⟩ := List.append_inj heq ((hwidth a ha).trans (hwidth b hb).symm)
  exact ⟨hinj a b ha hb hframe, htail⟩

namespace SelfDelimitingOn

variable {β : Type} {P : α → Prop} {Q : β → Prop} {frame : α → List σ} {frame' : β → List σ}

/-- A body behind its count. -/
theorem counted {room : Nat → Prop} {count : Nat → List σ} (h : SelfDelimitingOn room count) :
    SelfDelimitingOn (fun body : List σ => room body.length)
      (fun body => count body.length ++ body) := by
  intro a b ha hb tail tail' heq
  rw [List.append_assoc, List.append_assoc] at heq
  obtain ⟨hlength, hrest⟩ := h _ _ ha hb _ _ heq
  exact List.append_inj hrest hlength

theorem comap (h : SelfDelimitingOn P frame) {f : β → α} (hf : Function.Injective f) :
    SelfDelimitingOn (fun b => P (f b)) (fun b => frame (f b)) := by
  intro a b ha hb tail tail' heq
  obtain ⟨hsame, htail⟩ := h _ _ ha hb tail tail' heq
  exact ⟨hf hsame, htail⟩

/-- One frame after the other. -/
theorem append (h : SelfDelimitingOn P frame) (h' : SelfDelimitingOn Q frame') :
    SelfDelimitingOn (fun x : α × β => P x.1 ∧ Q x.2) (fun x => frame x.1 ++ frame' x.2) := by
  intro a b ha hb tail tail' heq
  rw [List.append_assoc, List.append_assoc] at heq
  obtain ⟨hfirst, hrest⟩ := h _ _ ha.1 hb.1 _ _ heq
  obtain ⟨hsecond, htail⟩ := h' _ _ ha.2 hb.2 _ _ hrest
  exact ⟨Prod.ext hfirst hsecond, htail⟩

/-- A value that may be missing, behind a tag that says so. -/
theorem optional (h : SelfDelimitingOn P frame) {absent present : σ} (hne : absent ≠ present) :
    SelfDelimitingOn (fun o : Option α => ∀ a, o = some a → P a)
      (fun o => o.elim [absent] fun a => present :: frame a) := by
  intro a b ha hb tail tail' heq
  cases a with
  | none =>
      cases b with
      | none => exact ⟨rfl, (List.cons.inj heq).2⟩
      | some b => exact absurd (List.cons.inj heq).1 hne
  | some a =>
      cases b with
      | none => exact absurd (List.cons.inj heq).1.symm hne
      | some b =>
          obtain ⟨rfl, htail⟩ := h a b (ha a rfl) (hb b rfl) _ _ (List.cons.inj heq).2
          exact ⟨rfl, htail⟩

end SelfDelimitingOn

end McpSeal.Foundation.Framing
