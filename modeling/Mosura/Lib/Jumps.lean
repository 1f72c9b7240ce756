import Mathlib

/-! Texts of structured statements with jumps: the block that control reaches first, and where the
`break` statements lead. -/

namespace Jumps

/-- A text over blocks `β`. A break may name the block it stands for. -/
inductive Text (β : Type*)
  | skip
  | block (b : β)
  | goto (t : β)
  | leave (t : Option β)
  | seq (first rest : Text β)
  /-- A test, then one of two branches. -/
  | branch (test yes no : Text β)
  /-- A loop that tests before its body. -/
  | loop (test body : Text β)
  /-- A loop that tests after its body, or never. -/
  | doLoop (body : Text β) (forever : Bool)
  /-- A switch, its cases one after the other. -/
  | switch (cases : Text β)

namespace Text

variable {β : Type*}

/-- The block control reaches first, where a break leads to `brk` and the text goes on to `k`;
`none` where no block is reached or a test decides. -/
def next : Text β → Option β → Option β → Option β
  | skip, _, k => k
  | block b, _, _ => some b
  | goto t, _, _ => some t
  | leave _, brk, _ => brk
  | seq first rest, brk, k => first.next brk (rest.next brk k)
  | branch test _ _, brk, _ => test.next brk none
  | loop test _, _, k => test.next k none
  | doLoop body _, _, k => body.next k none
  | switch _, _, _ => none

/-- The breaks of a text, each with the block it stands for and the block it leads to. -/
def breaks : Text β → Option β → Option β → List (Option β × Option β)
  | skip, _, _ => []
  | block _, _, _ => []
  | goto _, _, _ => []
  | leave t, brk, _ => [(t, brk)]
  | seq first rest, brk, k => first.breaks brk (rest.next brk k) ++ rest.breaks brk k
  | branch test yes no, brk, k =>
    test.breaks brk none ++ (yes.breaks brk k ++ no.breaks brk k)
  | loop test body, _, k => test.breaks k none ++ body.breaks k (test.next k none)
  | doLoop body forever, _, k => body.breaks k (if forever then body.next k none else none)
  | switch cases, _, k => cases.breaks k k

/-- Every break leads to the block it stands for. -/
def Right (t : Text β) (brk k : Option β) : Prop :=
  ∀ p ∈ t.breaks brk k, ∀ b, p.1 = some b → p.2 = some b

variable {a b c : Text β} {brk k : Option β} {t : β}

@[simp] theorem right_skip : (skip : Text β).Right brk k := fun _ h => absurd h List.not_mem_nil

@[simp] theorem right_block : (block t).Right brk k := fun _ h => absurd h List.not_mem_nil

@[simp] theorem right_goto : (goto t).Right brk k := fun _ h => absurd h List.not_mem_nil

@[simp] theorem right_leave_none : (leave (none : Option β)).Right brk k := by
  intro p hp b hb
  rw [List.mem_singleton.mp hp] at hb
  cases hb

@[simp] theorem right_leave : (leave (some t)).Right brk k ↔ brk = some t := by
  constructor
  · intro h
    exact h (some t, brk) (List.mem_singleton_self _) t rfl
  · intro h p hp b hb
    rw [List.mem_singleton.mp hp] at hb ⊢
    rw [h, ← hb]

theorem right_append {l l' : List (Option β × Option β)} :
    (∀ p ∈ l ++ l', ∀ b, p.1 = some b → p.2 = some b) ↔
      (∀ p ∈ l, ∀ b, p.1 = some b → p.2 = some b) ∧
        ∀ p ∈ l', ∀ b, p.1 = some b → p.2 = some b := by
  simp only [List.mem_append, or_imp, forall_and]

@[simp] theorem right_seq :
    (seq a b).Right brk k ↔ a.Right brk (b.next brk k) ∧ b.Right brk k := right_append

@[simp] theorem right_branch :
    (branch a b c).Right brk k ↔ a.Right brk none ∧ b.Right brk k ∧ c.Right brk k := by
  apply right_append.trans
  exact and_congr_right fun _ => right_append

@[simp] theorem right_loop :
    (loop a b).Right brk k ↔ a.Right k none ∧ b.Right k (a.next k none) := right_append

@[simp] theorem right_doLoop {forever : Bool} : (doLoop a forever).Right brk k ↔
    a.Right k (if forever then a.next k none else none) := Iff.rfl

@[simp] theorem right_switch : (switch a).Right brk k ↔ a.Right k k := Iff.rfl

end Text

end Jumps
