import Mosura.Scheduling

/-! The scheduler loses no work. -/

namespace Mosura
namespace Analysis

variable {σ A : Type}

/-- The entries queued at priority `p`. -/
def atPriority (p : ℤ) (e : Entry A) : Bool := decide ((ofLex e.1).1 = p)

namespace Scheduling

/-- The queue is sorted and every entry is from before the counter. -/
structure Ordered (s : Scheduling A) : Prop where
  sorted : KeyMap.Sorted s.queue
  seq_lt : ∀ e ∈ s.queue, (ofLex e.1).2 < s.seq

def scheduled (s : Scheduling A) (i : ℕ) : Bool := s.slots[i]?.any Slot.scheduled

/-- The number of tasks queued for analyzer `i`. -/
def tasks (s : Scheduling A) (i : ℕ) : ℕ := s.queue.countP (·.2.isTask i)

/-- The invariant of the scheduler: an analyzer is scheduled just when it has pending work, and
just then it has a task in the queue, and only one. -/
structure Inv (s : Scheduling A) : Prop extends Ordered s where
  pending : ∀ slot ∈ s.slots, slot.scheduled = !slot.pending.isEmpty
  tasks : ∀ i, s.tasks i = (s.scheduled i).toNat

/-- What a call does: it queues the entries `new` behind those of their priority and adds to the
accumulators. -/
structure Extends (s s' : Scheduling A) (new : List (Entry A)) : Prop where
  seq_le : s.seq ≤ s'.seq
  new_le : ∀ e ∈ new, s.seq ≤ (ofLex e.1).2
  filter : ∀ p, s'.queue.filter (atPriority p) =
    s.queue.filter (atPriority p) ++ new.filter (atPriority p)
  active : s'.activePriority = s.activePriority
  length : s'.slots.length = s.slots.length
  slot : ∀ (i : ℕ) (x : Slot), s.slots[i]? = some x → ∃ y : Slot, s'.slots[i]? = some y ∧
    y.ty = x.ty ∧ ∀ a ∈ x.pending, a ∈ y.pending

/-- With an empty queue no work is pending. -/
theorem Inv.idle {s : Scheduling A} (hs : s.Inv) (hq : s.queue = []) :
    ∀ x ∈ s.slots, x.pending.isEmpty = true := by
  intro x hx
  obtain ⟨i, hi⟩ := List.getElem?_of_mem hx
  have hsch : s.scheduled i = false := by
    have ht := hs.tasks i
    unfold Scheduling.tasks at ht
    rw [hq, List.countP_nil] at ht
    exact Bool.toNat_eq_zero.mp ht.symm
  unfold Scheduling.scheduled at hsch
  rw [hi, Option.any_some, hs.pending x hx] at hsch
  exact (Bool.not_eq_false' _).mp hsch

theorem Extends.refl (s : Scheduling A) : Extends s s [] :=
  ⟨le_rfl, nofun, fun _ => (List.append_nil _).symm, rfl, rfl, fun _ slot h =>
    ⟨slot, h, rfl, fun _ ha => ha⟩⟩

theorem Extends.trans {s s' s'' : Scheduling A} {new new' : List (Entry A)}
    (h : Extends s s' new) (h' : Extends s' s'' new') : Extends s s'' (new ++ new') where
  seq_le := h.seq_le.trans h'.seq_le
  new_le e he := by
    rcases List.mem_append.mp he with he | he
    · exact h.new_le e he
    · exact h.seq_le.trans (h'.new_le e he)
  filter p := by rw [h'.filter, h.filter, List.filter_append, List.append_assoc]
  active := h'.active.trans h.active
  length := h'.length.trans h.length
  slot i slot hi := by
    obtain ⟨slot', hi', hty, hp⟩ := h.slot i slot hi
    obtain ⟨slot'', hi'', hty', hp'⟩ := h'.slot i slot' hi'
    exact ⟨slot'', hi'', hty'.trans hty, fun a ha => hp' a (hp a ha)⟩

/-- The entries a call queues are those of the new queue that are not from before it. -/
theorem Extends.newEntries {s s' : Scheduling A} {new : List (Entry A)} (h : Extends s s' new)
    (hs : s.Ordered) (p : ℤ) :
    (Point.newEntries s s').filter (atPriority p) = new.filter (atPriority p) := by
  have hold : (s.queue.filter (atPriority p)).filter
      (fun e => decide (s.seq ≤ (ofLex e.1).2)) = [] := by
    refine List.filter_eq_nil_iff.mpr fun e he hle => ?_
    have hlt := hs.seq_lt e (List.mem_filter.mp he).1
    have hle' := of_decide_eq_true hle
    omega
  have hnew : (new.filter (atPriority p)).filter
      (fun e => decide (s.seq ≤ (ofLex e.1).2)) = new.filter (atPriority p) :=
    List.filter_eq_self.mpr fun e he =>
      decide_eq_true (h.new_le e (List.mem_filter.mp he).1)
  unfold Point.newEntries
  rw [List.filter_comm, h.filter, List.filter_append, hold, hnew, List.nil_append]

theorem Ordered.fresh {s : Scheduling A} (h : s.Ordered) (priority : ℤ) :
    KeyMap.Fresh (toLex (priority, s.seq)) s.queue := by
  intro e he heq
  have hlt := h.seq_lt e he
  rw [heq] at hlt
  exact lt_irrefl _ hlt

end Scheduling

namespace Scheduling

end Scheduling

namespace Point
open Scheduling

variable {an : Analyzers σ A}

/-- Two analyzers: one announces what it is given once more, the other does nothing. -/
def restless : Analyzers Unit Bool where
  name quiet := if quiet then "quiet" else "restless"
  analysisType quiet := if quiet then .data else .instruction
  priority quiet := if quiet then 2 else 1
  canAnalyze _ _ := true
  added quiet set _ := some ((), if quiet then [] else [.codeDefined set])
  disassembler _ := none
  functionCreator _ := true
  disabledAnalyzers _ := []

def origin : AddressSet := AddressSet.empty.addRange ⟨0, 0, 0, BitVec.le_refl _⟩

/-- The restless analyzer is about to run, or is announcing its code again. -/
structure Spinning (p : Point Unit Bool) : Prop where
  analyzers : p.mgr.analyzers = [false, true]
  quiet : ∀ r ∈ p.ran, r.1.2.isTask 1 = false
  shape : (p.todo = some [] ∧
      ∃ n, p.mgr.sched.queue = [(toLex (1, n), .task 0), (toLex (2, 1), .task 1)] ∧
        p.mgr.sched.slots = [⟨origin, true, 1, .instruction⟩, ⟨origin, true, 2, .data⟩]) ∨
    (p.todo = some [.codeDefined origin] ∧ p.mgr.sched.queue = [(toLex (2, 1), .task 1)] ∧
      p.mgr.sched.slots = [⟨.empty, false, 1, .instruction⟩, ⟨origin, true, 2, .data⟩])

theorem Spinning.step {p q : Point Unit Bool} {c : Option (Call Bool)} (h : Spinning p)
    (hs : Step restless p c q) : Spinning q := by
  obtain ⟨ha, hq, hshape⟩ := h
  have hrun : p.todo ≠ none := by
    rcases hshape with h | h
    · rw [h.1]
      nofun
    · rw [h.1]
      nofun
  cases hs with
  | world _ h => exact absurd h hrun
  | register _ h => exact absurd h hrun
  | seed h _ => exact absurd h hrun
  | start h => exact absurd h hrun
  | @entry e rest set s' w calls h hqueue he =>
    rcases hshape with ⟨-, n, hqu, hsl⟩ | ⟨ht, -⟩
    · obtain ⟨rfl, rfl⟩ := List.cons.inj (hqu.symm.trans hqueue)
      obtain ⟨w0, ⟨as, ⟨qu, seq, act, sl⟩⟩, todo, pushed, ran⟩ := p
      dsimp only at ha hsl hqu
      subst ha hsl hqu
      have he' := Option.some.inj he
      have hset : origin = set := congrArg (fun t => t.1) he'
      have hsched := congrArg (fun t => t.2.1) he'
      have hcalls : [Call.codeDefined set] = calls := hset ▸ congrArg (fun t => t.2.2.2) he'
      subst hset hcalls hsched
      refine ⟨rfl, fun r hr => ?_, .inr ⟨rfl, rfl, rfl⟩⟩
      rcases List.mem_append.mp hr with hr | hr
      · exact hq r hr
      · rw [List.mem_singleton.mp hr]
        rfl
    · exact absurd (ht.symm.trans h) nofun
  | @call c cs s' h hc =>
    rcases hshape with ⟨ht, -⟩ | ⟨ht, hqu, hsl⟩
    · exact absurd (ht.symm.trans h) nofun
    · obtain ⟨rfl, rfl⟩ := List.cons.inj (Option.some.inj (ht.symm.trans h))
      obtain ⟨w0, ⟨as, ⟨qu, seq, act, sl⟩⟩, todo, pushed, ran⟩ := p
      dsimp only at ha hsl hqu
      subst ha hsl hqu
      by_cases hlt : seq + 1 < 2 ^ 64
      · have hres : s' =
            { queue := KeyMap.insert (toLex (1, seq)) (.task 0) [(toLex (2, 1), .task 1)]
              seq := seq + 1
              activePriority := act
              slots := [⟨origin, true, 1, .instruction⟩, ⟨origin, true, 2, .data⟩] } := by
          refine (Option.some.inj (Eq.trans ?_ hc)).symm
          change some _ = ((if seq + 1 < 2 ^ 64 then some _ else none) >>= _) >>= _
          rw [if_pos hlt]
          rfl
        have hk : toLex ((1 : ℤ), seq) < toLex ((2 : ℤ), 1) :=
          Prod.Lex.lt_iff.mpr (.inl (by norm_num))
        have hins : KeyMap.insert (toLex ((1 : ℤ), seq)) (Command.task 0 : Command Bool)
            [(toLex (2, 1), .task 1)] = [(toLex (1, seq), .task 0), (toLex (2, 1), .task 1)] :=
          if_pos hk
        rw [hins] at hres
        subst hres
        exact ⟨rfl, hq, .inl ⟨rfl, seq, rfl, rfl⟩⟩
      · have hnone : (none : Option (Scheduling Bool)) = some s' := by
          refine Eq.trans ?_ hc
          change _ = ((if seq + 1 < 2 ^ 64 then some _ else none) >>= _) >>= _
          rw [if_neg hlt]
          rfl
        cases hnone
  | finish h hnil =>
    rcases hshape with ⟨-, n, hqu, -⟩ | ⟨ht, -⟩
    · exact absurd (hqu.symm.trans hnil) nofun
    · exact absurd (ht.symm.trans h) nofun
end Point
end Analysis
end Mosura
