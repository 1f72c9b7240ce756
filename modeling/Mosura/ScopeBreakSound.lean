import Mosura.ScopeBreak

/-! When a goto that `scope_break` marks as a break still reaches its target: where the printed
text goes on, after the loop, to the block that follows the loop in the structure. -/

namespace Mosura

open Jumps

/-- Where control leaves a node for: the block that follows it in the structure, and the block that
the printed text goes on to. -/
structure Way where
  exit : Option ℕ
  text : Option ℕ

namespace Way

/-- To a block. -/
def into (b : ℕ) : Way := ⟨some b, some b⟩

/-- To a test, or to the end of the function. -/
def nowhere : Way := ⟨none, none⟩

/-- To the next component, or out of the last. -/
def next : List FlowBlock → Way → Way
  | [], w => w
  | c :: _, _ => .into c.entryBasic

/-- The gotos printed after the node come first in the text. -/
def after (records : List GotoRecord) (w : Way) : Way :=
  ⟨w.exit, match records with
    | [] => w.text
    | r :: _ => some r.target⟩

/-- The text after a case with no `break;`: the next case, or the first of the arms that are jumps.
The text leaves the switch at an arm that leads to its exit. -/
def fall (flow : Option ℕ) (arms : List (Option ℕ)) (w : Way) : List FlowBlock → Option ℕ
  | c :: _ => some c.entryBasic
  | [] =>
    match arms with
    | [] => w.text
    | none :: _ => w.text
    | some b :: _ => if flow = some b then w.text else some b

end Way

/-- Where a record leads to the block that follows the loop or switch it lies in, the text goes on
to that block. -/
def GotoRecord.Clear (r : GotoRecord) (loop : Way) : Prop :=
  some r.target = loop.exit → loop.text = loop.exit

namespace CollapsedForest

variable (s : CollapsedForest) (tables : SwitchTables)

/-- All records printed after a node or a block are clear. -/
def NodeClear (idx : ℕ) (loop : Way) : Prop := ∀ r ∈ recordsAt s.nodeGotos idx, r.Clear loop

def BasicClear (b : ℕ) (loop : Way) : Prop := ∀ r ∈ recordsAt s.gotos b, r.Clear loop

/-- The records of a switch's head: those printed before the switch, and those that its arms stand
for. The second are gotos where the printer sees another exit. -/
def HeadClear (idx headIdx : ℕ) (cases : List FlowBlock) (flow : Option ℕ) (w loop : Way) : Prop :=
  ∀ r ∈ recordsAt s.nodeGotos headIdx, some r.target = w.exit →
    if tables.suppressed idx cases r then flow = w.exit → w.text = w.exit
    else loop.text = w.exit

mutual

/-- In a node with way out `w`, in a loop or switch with way out `loop`, no goto is printed between
a loop and the block that follows it, and no case ends there without a `break;`, unless to that
block, for the loops and switches that a goto leaves for that block. -/
def Clear : FlowBlock → Option ℕ → Way → Way → Prop
  | .basic idx b, _, _, loop => s.BasicClear b loop ∧ s.NodeClear idx loop
  | .list idx first rest, flow, w, loop =>
    (Clear first (FlowBlock.nextEntry rest flow) (.next rest (w.after (recordsAt s.nodeGotos idx)))
        loop ∧
      ClearList rest flow (w.after (recordsAt s.nodeGotos idx)) loop) ∧ s.NodeClear idx loop
  | .ifThen idx cond body, flow, w, loop =>
    (Clear cond flow .nowhere loop ∧
      Clear body flow (w.after (recordsAt s.nodeGotos idx)) loop) ∧ s.NodeClear idx loop
  | .ifElse idx cond tc fc, flow, w, loop =>
    (Clear cond flow .nowhere loop ∧
      Clear tc flow (w.after (recordsAt s.nodeGotos idx)) loop ∧
      Clear fc flow (w.after (recordsAt s.nodeGotos idx)) loop) ∧ s.NodeClear idx loop
  | .whileDo idx cond body, _, w, loop =>
    (Clear cond (some cond.entryBasic) .nowhere (w.after (recordsAt s.nodeGotos idx)) ∧
      Clear body (some cond.entryBasic) (.into cond.entryBasic)
        (w.after (recordsAt s.nodeGotos idx))) ∧ s.NodeClear idx loop
  | .doWhile idx body, _, w, loop =>
    Clear body (some body.exitBasic) .nowhere (w.after (recordsAt s.nodeGotos idx)) ∧
      s.NodeClear idx loop
  | .infLoop idx body, _, w, loop =>
    Clear body (some body.entryBasic) (.into body.entryBasic)
        (w.after (recordsAt s.nodeGotos idx)) ∧ s.NodeClear idx loop
  | .condition idx a b, flow, _, loop =>
    (Clear a flow .nowhere loop ∧ s.BasicClear b.exitBasic loop) ∧ s.NodeClear idx loop
  | .switch idx headIdx head cases, flow, w, loop =>
    (s.BasicClear head ⟨w.exit, loop.text⟩ ∧
      s.HeadClear tables idx headIdx cases flow (w.after (recordsAt s.nodeGotos idx)) loop ∧
      ClearCases cases flow (tables.arms idx cases (recordsAt s.nodeGotos headIdx))
        (w.after (recordsAt s.nodeGotos idx))) ∧ s.NodeClear idx loop

def ClearList : List FlowBlock → Option ℕ → Way → Way → Prop
  | [], _, _, _ => True
  | c :: cs, flow, w, loop =>
    Clear c (FlowBlock.nextEntry cs flow) (.next cs w) loop ∧ ClearList cs flow w loop

/-- The cases of a switch that leaves by `w`. -/
def ClearCases : List FlowBlock → Option ℕ → List (Option ℕ) → Way → Prop
  | [], _, _, _ => True
  | c :: cs, flow, arms, w =>
    Clear c flow
        ⟨w.exit, if tables.isExit c.idx ∧ ¬(cs = [] ∧ arms.isEmpty) then w.text
          else Way.fall flow arms w cs⟩ w ∧
      ClearCases cs flow arms w

end

/-- Every break of the printed forest has its way. -/
def AllClear : Prop := s.ClearList tables s.roots none .nowhere .nowhere

end CollapsedForest

namespace CondSide

/-- The scope of each node of a side. -/
def nodePlaces : CondSide → Option ℕ → List (ℕ × Option ℕ)
  | basic idx _, loop => [(idx, loop)]
  | condition idx a b, loop => (idx, loop) :: (a.nodePlaces loop ++ b.nodePlaces loop)

def basicPlaces : CondSide → Option ℕ → List (ℕ × Option ℕ)
  | basic _ b, loop => [(b, loop)]
  | condition _ a b, loop => a.basicPlaces loop ++ b.basicPlaces loop

end CondSide

namespace FlowBlock

mutual

/-- The scope of each node, with the block that follows and the exit of the loop around. -/
def nodePlaces : FlowBlock → Option ℕ → Option ℕ → List (ℕ × Option ℕ)
  | basic idx _, _, loop => [(idx, loop)]
  | list idx first rest, exit, loop =>
    (idx, loop) :: (first.nodePlaces (nextEntry rest exit) loop ++ nodePlacesList rest exit loop)
  | ifThen idx cond body, exit, loop =>
    (idx, loop) :: (cond.nodePlaces none loop ++ body.nodePlaces exit loop)
  | ifElse idx cond tc fc, exit, loop =>
    (idx, loop) ::
      (cond.nodePlaces none loop ++ (tc.nodePlaces exit loop ++ fc.nodePlaces exit loop))
  | whileDo idx cond body, exit, loop =>
    (idx, loop) :: (cond.nodePlaces none exit ++ body.nodePlaces (some cond.entryBasic) exit)
  | doWhile idx body, exit, loop => (idx, loop) :: body.nodePlaces none exit
  | infLoop idx body, exit, loop => (idx, loop) :: body.nodePlaces (some body.entryBasic) exit
  | condition idx a b, _, loop => (idx, loop) :: (a.nodePlaces none loop ++ b.nodePlaces loop)
  | switch idx headIdx _ cases, exit, loop =>
    (idx, loop) :: (headIdx, exit) :: nodePlacesCases cases exit

def nodePlacesList : List FlowBlock → Option ℕ → Option ℕ → List (ℕ × Option ℕ)
  | [], _, _ => []
  | c :: cs, exit, loop =>
    c.nodePlaces (nextEntry cs exit) loop ++ nodePlacesList cs exit loop

def nodePlacesCases : List FlowBlock → Option ℕ → List (ℕ × Option ℕ)
  | [], _ => []
  | c :: cs, exit => c.nodePlaces exit exit ++ nodePlacesCases cs exit

end

mutual

/-- The scope of each basic block. -/
def basicPlaces : FlowBlock → Option ℕ → Option ℕ → List (ℕ × Option ℕ)
  | basic _ b, _, loop => [(b, loop)]
  | list _ first rest, exit, loop =>
    first.basicPlaces (nextEntry rest exit) loop ++ basicPlacesList rest exit loop
  | ifThen _ cond body, exit, loop => cond.basicPlaces none loop ++ body.basicPlaces exit loop
  | ifElse _ cond tc fc, exit, loop =>
    cond.basicPlaces none loop ++ (tc.basicPlaces exit loop ++ fc.basicPlaces exit loop)
  | whileDo _ cond body, exit, _ =>
    cond.basicPlaces none exit ++ body.basicPlaces (some cond.entryBasic) exit
  | doWhile _ body, exit, _ => body.basicPlaces none exit
  | infLoop _ body, exit, _ => body.basicPlaces (some body.entryBasic) exit
  | condition _ a b, _, loop => a.basicPlaces none loop ++ b.basicPlaces loop
  | switch _ _ head cases, exit, _ => (head, exit) :: basicPlacesCases cases exit

def basicPlacesList : List FlowBlock → Option ℕ → Option ℕ → List (ℕ × Option ℕ)
  | [], _, _ => []
  | c :: cs, exit, loop =>
    c.basicPlaces (nextEntry cs exit) loop ++ basicPlacesList cs exit loop

def basicPlacesCases : List FlowBlock → Option ℕ → List (ℕ × Option ℕ)
  | [], _ => []
  | c :: cs, exit => c.basicPlaces exit exit ++ basicPlacesCases cs exit

end

end FlowBlock

/-- A map after insertions. -/
def insertAll (places : List (ℕ × Option ℕ)) (m : ℕ → Option (Option ℕ)) : ℕ → Option (Option ℕ) :=
  places.foldl (fun m p => Function.update m p.1 (some p.2)) m

theorem insertAll_append {l l' : List (ℕ × Option ℕ)} {m : ℕ → Option (Option ℕ)} :
    insertAll (l ++ l') m = insertAll l' (insertAll l m) := List.foldl_append

theorem insertAll_of_notMem {l : List (ℕ × Option ℕ)} {m : ℕ → Option (Option ℕ)} {key : ℕ}
    (h : key ∉ l.map Prod.fst) : insertAll l m key = m key := by
  induction l generalizing m with
  | nil => rfl
  | cons p l ih =>
    rw [List.map_cons, List.mem_cons, not_or] at h
    change insertAll l (Function.update m p.1 (some p.2)) key = _
    rw [ih h.2, Function.update_of_ne h.1]

/-- Where the keys are distinct each has the value it was inserted with. -/
theorem insertAll_of_mem {l : List (ℕ × Option ℕ)} {m : ℕ → Option (Option ℕ)}
    {p : ℕ × Option ℕ} (hl : (l.map Prod.fst).Nodup) (hp : p ∈ l) :
    insertAll l m p.1 = some p.2 := by
  induction l generalizing m with
  | nil => exact absurd hp List.not_mem_nil
  | cons q l ih =>
    rw [List.map_cons, List.nodup_cons] at hl
    change insertAll l (Function.update m q.1 (some q.2)) p.1 = _
    rcases List.mem_cons.mp hp with rfl | hp
    · rw [insertAll_of_notMem hl.1, Function.update_self]
    · exact ih hl.2 hp

namespace CondSide

theorem scopeBreakWalk_eq (t : CondSide) (loop : Option ℕ) (m : Scopes) :
    t.scopeBreakWalk loop m =
      ⟨insertAll (t.basicPlaces loop) m.loopexit, insertAll (t.nodePlaces loop) m.nodeLoopexit⟩ := by
  induction t generalizing m with
  | basic idx b => rfl
  | condition idx a b iha ihb =>
    rw [scopeBreakWalk, iha, ihb, basicPlaces, nodePlaces, insertAll_append]
    congr 1
    exact insertAll_append.symm

theorem exitBasic_mem (t : CondSide) (loop : Option ℕ) : (t.exitBasic, loop) ∈ t.basicPlaces loop := by
  induction t with
  | basic idx b => exact List.mem_singleton_self _
  | condition idx a b _ ihb => exact List.mem_append_right _ ihb

theorem fst_nodePlaces (t : CondSide) (loop : Option ℕ) :
    (t.nodePlaces loop).map Prod.fst = t.ids := by
  induction t with
  | basic idx b => rfl
  | condition idx a b iha ihb => rw [nodePlaces, ids, List.map_cons, List.map_append, iha, ihb]

theorem fst_basicPlaces (t : CondSide) (loop : Option ℕ) :
    (t.basicPlaces loop).map Prod.fst = t.basics := by
  induction t with
  | basic idx b => rfl
  | condition idx a b iha ihb => rw [basicPlaces, basics, List.map_append, iha, ihb]

end CondSide

namespace FlowBlock

mutual

theorem scopeBreakWalk_eq (t : FlowBlock) (exit loop : Option ℕ) (m : Scopes) :
    t.scopeBreakWalk exit loop m = ⟨insertAll (t.basicPlaces exit loop) m.loopexit,
      insertAll (t.nodePlaces exit loop) m.nodeLoopexit⟩ := by
  cases t with
  | basic idx b => rfl
  | list idx first rest =>
    rw [scopeBreakWalk, scopeBreakWalk_eq first, walkList_eq rest, basicPlaces, nodePlaces,
      insertAll_append]
    congr 1
    exact insertAll_append.symm
  | ifThen idx cond body =>
    rw [scopeBreakWalk, scopeBreakWalk_eq cond, scopeBreakWalk_eq body, basicPlaces, nodePlaces,
      insertAll_append]
    congr 1
    exact insertAll_append.symm
  | ifElse idx cond tc fc =>
    rw [scopeBreakWalk, scopeBreakWalk_eq cond, scopeBreakWalk_eq tc, scopeBreakWalk_eq fc,
      basicPlaces, nodePlaces, insertAll_append, insertAll_append]
    congr 1
    exact insertAll_append.symm.trans insertAll_append.symm
  | whileDo idx cond body =>
    rw [scopeBreakWalk, scopeBreakWalk_eq cond, scopeBreakWalk_eq body, basicPlaces, nodePlaces,
      insertAll_append]
    congr 1
    exact insertAll_append.symm
  | doWhile idx body =>
    rw [scopeBreakWalk, scopeBreakWalk_eq body, basicPlaces, nodePlaces]
    rfl
  | infLoop idx body =>
    rw [scopeBreakWalk, scopeBreakWalk_eq body, basicPlaces, nodePlaces]
    rfl
  | condition idx a b =>
    rw [scopeBreakWalk, scopeBreakWalk_eq a, CondSide.scopeBreakWalk_eq, basicPlaces, nodePlaces,
      insertAll_append]
    congr 1
    exact insertAll_append.symm
  | switch idx headIdx head cases =>
    rw [scopeBreakWalk, walkCases_eq cases, basicPlaces, nodePlaces]
    rfl

theorem walkList_eq (cs : List FlowBlock) (exit loop : Option ℕ) (m : Scopes) :
    walkList cs exit loop m = ⟨insertAll (basicPlacesList cs exit loop) m.loopexit,
      insertAll (nodePlacesList cs exit loop) m.nodeLoopexit⟩ := by
  cases cs with
  | nil => rfl
  | cons c cs =>
    rw [walkList, scopeBreakWalk_eq c, walkList_eq cs, basicPlacesList, nodePlacesList,
      insertAll_append, insertAll_append]

theorem walkCases_eq (cs : List FlowBlock) (exit : Option ℕ) (m : Scopes) :
    walkCases cs exit m = ⟨insertAll (basicPlacesCases cs exit) m.loopexit,
      insertAll (nodePlacesCases cs exit) m.nodeLoopexit⟩ := by
  cases cs with
  | nil => rfl
  | cons c cs =>
    rw [walkCases, scopeBreakWalk_eq c, walkCases_eq cs, basicPlacesCases, nodePlacesCases,
      insertAll_append, insertAll_append]

end

mutual

theorem fst_nodePlaces (t : FlowBlock) (exit loop : Option ℕ) :
    (t.nodePlaces exit loop).map Prod.fst = t.ids := by
  cases t with
  | basic idx b => rfl
  | list idx first rest =>
    rw [nodePlaces, ids, List.map_cons, List.map_append, fst_nodePlaces first,
      fst_nodePlacesList rest]
  | ifThen idx cond body =>
    rw [nodePlaces, ids, List.map_cons, List.map_append, fst_nodePlaces cond, fst_nodePlaces body]
  | ifElse idx cond tc fc =>
    rw [nodePlaces, ids, List.map_cons, List.map_append, List.map_append, fst_nodePlaces cond,
      fst_nodePlaces tc, fst_nodePlaces fc]
  | whileDo idx cond body =>
    rw [nodePlaces, ids, List.map_cons, List.map_append, fst_nodePlaces cond, fst_nodePlaces body]
  | doWhile idx body => rw [nodePlaces, ids, List.map_cons, fst_nodePlaces body]
  | infLoop idx body => rw [nodePlaces, ids, List.map_cons, fst_nodePlaces body]
  | condition idx a b =>
    rw [nodePlaces, ids, List.map_cons, List.map_append, fst_nodePlaces a,
      CondSide.fst_nodePlaces]
  | switch idx headIdx head cases =>
    rw [nodePlaces, ids, List.map_cons, List.map_cons, fst_nodePlacesCases cases]

theorem fst_nodePlacesList (cs : List FlowBlock) (exit loop : Option ℕ) :
    (nodePlacesList cs exit loop).map Prod.fst = idsOf cs := by
  cases cs with
  | nil => rfl
  | cons c cs =>
    rw [nodePlacesList, idsOf, List.map_append, fst_nodePlaces c, fst_nodePlacesList cs]

theorem fst_nodePlacesCases (cs : List FlowBlock) (exit : Option ℕ) :
    (nodePlacesCases cs exit).map Prod.fst = idsOf cs := by
  cases cs with
  | nil => rfl
  | cons c cs =>
    rw [nodePlacesCases, idsOf, List.map_append, fst_nodePlaces c, fst_nodePlacesCases cs]

end

mutual

theorem fst_basicPlaces (t : FlowBlock) (exit loop : Option ℕ) :
    (t.basicPlaces exit loop).map Prod.fst = t.basics := by
  cases t with
  | basic idx b => rfl
  | list idx first rest =>
    rw [basicPlaces, basics, List.map_append, fst_basicPlaces first, fst_basicPlacesList rest]
  | ifThen idx cond body =>
    rw [basicPlaces, basics, List.map_append, fst_basicPlaces cond, fst_basicPlaces body]
  | ifElse idx cond tc fc =>
    rw [basicPlaces, basics, List.map_append, List.map_append, fst_basicPlaces cond,
      fst_basicPlaces tc, fst_basicPlaces fc]
  | whileDo idx cond body =>
    rw [basicPlaces, basics, List.map_append, fst_basicPlaces cond, fst_basicPlaces body]
  | doWhile idx body => rw [basicPlaces, basics, fst_basicPlaces body]
  | infLoop idx body => rw [basicPlaces, basics, fst_basicPlaces body]
  | condition idx a b =>
    rw [basicPlaces, basics, List.map_append, fst_basicPlaces a, CondSide.fst_basicPlaces]
  | switch idx headIdx head cases =>
    rw [basicPlaces, basics, List.map_cons, fst_basicPlacesCases cases]

theorem fst_basicPlacesList (cs : List FlowBlock) (exit loop : Option ℕ) :
    (basicPlacesList cs exit loop).map Prod.fst = basicsOf cs := by
  cases cs with
  | nil => rfl
  | cons c cs =>
    rw [basicPlacesList, basicsOf, List.map_append, fst_basicPlaces c, fst_basicPlacesList cs]

theorem fst_basicPlacesCases (cs : List FlowBlock) (exit : Option ℕ) :
    (basicPlacesCases cs exit).map Prod.fst = basicsOf cs := by
  cases cs with
  | nil => rfl
  | cons c cs =>
    rw [basicPlacesCases, basicsOf, List.map_append, fst_basicPlaces c, fst_basicPlacesCases cs]

end

end FlowBlock

theorem recordsAt_map {m : List (ℕ × List GotoRecord)} {f : ℕ → GotoRecord → GotoRecord}
    (key : ℕ) : recordsAt (m.map fun e => (e.1, e.2.map (f e.1))) key =
      (recordsAt m key).map (f key) := by
  unfold recordsAt
  induction m with
  | nil => rfl
  | cons e m ih =>
    rw [List.map_cons, List.lookup_cons, List.lookup_cons]
    cases h : key == e.1 with
    | true =>
      rw [eq_of_beq h]
      rfl
    | false => exact ih

theorem mem_of_mem_recordsAt {m : List (ℕ × List GotoRecord)} {key : ℕ} {r : GotoRecord}
    (h : r ∈ recordsAt m key) : ∃ e ∈ m, r ∈ e.2 := by
  unfold recordsAt at h
  cases hl : m.lookup key with
  | none =>
    rw [hl] at h
    exact absurd h List.not_mem_nil
  | some l =>
    rw [hl] at h
    obtain ⟨l₁, l₂, hm, -⟩ := List.lookup_eq_some_iff.mp hl
    refine ⟨(key, l), ?_, h⟩
    rw [hm]
    exact List.mem_append_right _ List.mem_cons_self

namespace GotoRecord

variable {r : GotoRecord} {loop : Way} {k : Option ℕ}

theorem target_reclassify (r : GotoRecord) (cle : Option ℕ) :
    (r.reclassify (some cle)).target = r.target := by
  rw [reclassify]
  split
  · rfl
  · rfl

theorem reclassify_statement (hr : r.isBreak = false) (cle : Option ℕ) :
    (r.reclassify (some cle)).statement =
      if some r.target = cle then .leave (some r.target) else .goto r.target := by
  by_cases h : some r.target = cle
  · have hmarked : r.reclassify (some cle) = { r with isBreak := true } := if_pos h
    rw [hmarked, if_pos h]
    rfl
  · have hkept : r.reclassify (some cle) = r := if_neg h
    rw [hkept, if_neg h, statement, hr]
    rfl

/-- A record's statement is right where it is clear. -/
theorem right_statement (hr : r.isBreak = false) :
    (r.reclassify (some loop.exit)).statement.Right loop.text k ↔ r.Clear loop := by
  rw [reclassify_statement hr]
  unfold Clear
  by_cases h : some r.target = loop.exit
  · rw [if_pos h, Text.right_leave, h]
    exact ⟨fun hb _ => hb, fun hb => hb rfl⟩
  · rw [if_neg h]
    exact iff_of_true Text.right_goto fun hb => absurd hb h

theorem right_text (hr : r.isBreak = false) :
    (r.reclassify (some loop.exit)).text.Right loop.text k ↔ r.Clear loop := by
  unfold text
  by_cases hc : (r.reclassify (some loop.exit)).conditional = true
  · rw [if_pos hc, Text.right_branch, right_statement hr]
    simp
  · rw [if_neg hc]
    exact right_statement hr

/-- The statement of a clear record leads to its target. -/
theorem next_statement (hr : r.isBreak = false) (h : r.Clear loop) :
    (r.reclassify (some loop.exit)).statement.next loop.text k = some r.target := by
  rw [reclassify_statement hr]
  by_cases ht : some r.target = loop.exit
  · rw [if_pos ht, ht]
    exact h ht
  · rw [if_neg ht]
    rfl

end GotoRecord

/-- Statements that each are right wherever they lead are right one after the other. -/
theorem right_statements {l : List (Text ℕ)} {brk k : Option ℕ} {P : Text ℕ → Prop}
    (h : ∀ a ∈ l, ∀ k, a.Right brk k ↔ P a) : (statements l).Right brk k ↔ ∀ a ∈ l, P a := by
  induction l generalizing k with
  | nil => exact iff_of_true Text.right_skip fun a ha => absurd ha List.not_mem_nil
  | cons a l ih =>
    change (Text.seq a (statements l)).Right brk k ↔ _
    rw [Text.right_seq, h a List.mem_cons_self, List.forall_mem_cons]
    exact and_congr_right fun _ => ih fun b hb => h b (List.mem_cons_of_mem _ hb)

theorem Way.next_exit (cs : List FlowBlock) (w : Way) :
    (Way.next cs w).exit = FlowBlock.nextEntry cs w.exit := by
  cases cs with
  | nil => rfl
  | cons c cs => rfl

section Emit

variable {s : Structured} {tables : SwitchTables}

/-- The text of a node starts with its entry. -/
theorem next_emitStructured (t : FlowBlock) (flow brk k : Option ℕ) :
    (s.emitStructured tables t flow).next brk k = some t.entryBasic := by
  cases t with
  | basic idx b => rfl
  | list idx first rest => exact next_emitStructured first (FlowBlock.nextEntry rest flow) _ _
  | ifThen idx cond body => exact next_emitStructured cond flow _ _
  | ifElse idx cond tc fc => exact next_emitStructured cond flow _ _
  | whileDo idx cond body => exact next_emitStructured cond (some cond.entryBasic) _ _
  | doWhile idx body => exact next_emitStructured body (some body.exitBasic) _ _
  | infLoop idx body => exact next_emitStructured body (some body.entryBasic) _ _
  | condition idx a b => exact next_emitStructured a flow _ _
  | switch idx headIdx head cases => rfl

theorem next_emitList (cs : List FlowBlock) (flow brk : Option ℕ) (w : Way) :
    (s.emitList tables cs flow).next brk w.text = (Way.next cs w).text := by
  cases cs with
  | nil => rfl
  | cons c cs => exact next_emitStructured c (FlowBlock.nextEntry cs flow) _ _

theorem next_emitCases (cs : List FlowBlock) (flow : Option ℕ) {arms : List (Option ℕ)}
    {text : Text ℕ} {w : Way} {noArms : Bool}
    (h : text.next w.text w.text = Way.fall flow arms w []) :
    (s.emitCases tables cs flow text noArms).next w.text w.text = Way.fall flow arms w cs := by
  cases cs with
  | nil => exact h
  | cons c cs => exact next_emitStructured c flow _ _

end Emit

namespace CollapsedForest

variable {s : CollapsedForest} {tables : SwitchTables} {idx headIdx b : ℕ} {w loop : Way}
  {flow k : Option ℕ} {body : Text ℕ} {P : Prop}

/-- The walk has recorded these scopes of nodes and basic blocks. -/
def Scoped (s : CollapsedForest) (nodes basics : List (ℕ × Option ℕ)) : Prop :=
  (∀ p ∈ nodes, s.scopes.nodeLoopexit p.1 = some p.2) ∧
    ∀ p ∈ basics, s.scopes.loopexit p.1 = some p.2

theorem scoped_append {n n' b b' : List (ℕ × Option ℕ)} :
    s.Scoped (n ++ n') (b ++ b') ↔ s.Scoped n b ∧ s.Scoped n' b' := by
  unfold Scoped
  rw [List.forall_mem_append, List.forall_mem_append]
  exact and_and_and_comm

theorem scoped_cons_node {e : Option ℕ} {n b : List (ℕ × Option ℕ)} :
    s.Scoped ((idx, e) :: n) b ↔ s.scopes.nodeLoopexit idx = some e ∧ s.Scoped n b := by
  unfold Scoped
  rw [List.forall_mem_cons]
  exact and_assoc

theorem scoped_cons_basic {c : ℕ} {e : Option ℕ} {n b : List (ℕ × Option ℕ)} :
    s.Scoped n ((c, e) :: b) ↔ s.scopes.loopexit c = some e ∧ s.Scoped n b := by
  unfold Scoped
  rw [List.forall_mem_cons]
  exact and_left_comm

theorem nodeGotos_fresh_at {r : GotoRecord} (h : r ∈ recordsAt s.nodeGotos idx) :
    r.isBreak = false := by
  obtain ⟨e, he, hr⟩ := mem_of_mem_recordsAt h
  exact s.nodeGotos_fresh e he r hr

theorem gotos_fresh_at {r : GotoRecord} (h : r ∈ recordsAt s.gotos b) : r.isBreak = false := by
  obtain ⟨e, he, hr⟩ := mem_of_mem_recordsAt h
  exact s.gotos_fresh e he r hr

theorem recordsAt_nodeGotos {e : Option ℕ} (h : s.scopes.nodeLoopexit idx = some e) :
    recordsAt s.scopeBreak.nodeGotos idx =
      (recordsAt s.nodeGotos idx).map (GotoRecord.reclassify (some e)) := by
  rw [← h]
  exact recordsAt_map (f := fun i => GotoRecord.reclassify (s.scopes.nodeLoopexit i)) idx

theorem recordsAt_gotos {e : Option ℕ} (h : s.scopes.loopexit b = some e) :
    recordsAt s.scopeBreak.gotos b =
      (recordsAt s.gotos b).map (GotoRecord.reclassify (some e)) := by
  rw [← h]
  exact recordsAt_map (f := fun i => GotoRecord.reclassify (s.scopes.loopexit i)) b

/-- The gotos after a basic block are right where they are clear. -/
theorem right_basicText (h : s.scopes.loopexit b = some loop.exit) :
    (s.scopeBreak.basicText b).Right loop.text k ↔ s.BasicClear b loop := by
  unfold Structured.basicText BasicClear
  rw [recordsAt_gotos h, List.map_map]
  apply (right_statements (P := fun a => a.Right loop.text none) ?_).trans
  · rw [List.forall_mem_map]
    apply forall₂_congr
    intro r hr
    exact GotoRecord.right_text (gotos_fresh_at hr)
  · intro a ha k
    obtain ⟨r, hr, rfl⟩ := List.mem_map.mp ha
    exact (GotoRecord.right_text (gotos_fresh_at hr)).trans
      (GotoRecord.right_text (gotos_fresh_at hr)).symm

/-- So are some of the gotos printed after a node. -/
theorem right_nodeStatements {l : List GotoRecord} (hl : l ⊆ recordsAt s.nodeGotos idx) :
    (statements ((l.map (GotoRecord.reclassify (some loop.exit))).map GotoRecord.statement)).Right
      loop.text k ↔ ∀ r ∈ l, r.Clear loop := by
  rw [List.map_map]
  apply (right_statements (P := fun a => a.Right loop.text none) ?_).trans
  · rw [List.forall_mem_map]
    apply forall₂_congr
    intro r hr
    exact GotoRecord.right_statement (nodeGotos_fresh_at (hl hr))
  · intro a ha k
    obtain ⟨r, hr, rfl⟩ := List.mem_map.mp ha
    exact (GotoRecord.right_statement (nodeGotos_fresh_at (hl hr))).trans
      (GotoRecord.right_statement (nodeGotos_fresh_at (hl hr))).symm

/-- The text goes on to the first goto printed after a node, if its gotos are clear. -/
theorem next_nodeText (h : s.scopes.nodeLoopexit idx = some loop.exit)
    (hclear : s.NodeClear idx loop) : (s.scopeBreak.nodeText idx).next loop.text w.text =
      (w.after (recordsAt s.nodeGotos idx)).text := by
  unfold Structured.nodeText
  rw [recordsAt_nodeGotos h]
  cases hl : recordsAt s.nodeGotos idx with
  | nil => rfl
  | cons r l =>
    have hr : r ∈ recordsAt s.nodeGotos idx := by
      rw [hl]
      exact List.mem_cons_self
    exact GotoRecord.next_statement (nodeGotos_fresh_at hr) (hclear r hr)

/-- A node is right if its body is, with the gotos printed after it ahead, and they are clear. -/
theorem right_node (h : s.scopes.nodeLoopexit idx = some loop.exit)
    (hbody : body.Right loop.text (w.after (recordsAt s.nodeGotos idx)).text ↔ P) :
    (Text.seq body (s.scopeBreak.nodeText idx)).Right loop.text w.text ↔
      P ∧ s.NodeClear idx loop := by
  have hnode : (s.scopeBreak.nodeText idx).Right loop.text w.text ↔ s.NodeClear idx loop := by
    unfold Structured.nodeText
    rw [recordsAt_nodeGotos h]
    exact right_nodeStatements (List.Subset.refl _)
  rw [Text.right_seq, hnode]
  apply and_congr_left
  intro hclear
  rw [next_nodeText h hclear]
  exact hbody

section Arms

variable {cases : List FlowBlock}

theorem mem_defaultCuts {tables : SwitchTables} {records : List GotoRecord} {t : ℕ} :
    t ∈ tables.defaultCuts idx cases records ↔ (∃ r ∈ records, r.target = t) ∧
      some t ∉ tables.landings idx ∧ t ∉ cases.map FlowBlock.entryBasic := by
  unfold SwitchTables.defaultCuts
  rw [List.mem_eraseDups, List.mem_filter, List.mem_map]
  simp

/-- An arm stands for a record of the head if and only if the record is not printed before. -/
theorem mem_arms {r : GotoRecord} (hr : r ∈ recordsAt s.nodeGotos headIdx) :
    some r.target ∈ tables.arms idx cases (recordsAt s.nodeGotos headIdx) ↔
      tables.suppressed idx cases r = true := by
  unfold SwitchTables.arms SwitchTables.suppressed
  rw [List.mem_append, decide_eq_true_eq, List.mem_map]
  constructor
  · rintro (hland | ⟨t, ht, he⟩)
    · exact .inl hland
    · rw [← Option.some.inj he]
      exact .inr (mem_defaultCuts.mp ht).2.2
  · intro hsup
    by_cases hland : some r.target ∈ tables.landings idx
    · exact .inl hland
    · exact .inr ⟨r.target,
        mem_defaultCuts.mpr ⟨⟨r, hr, rfl⟩, hland, hsup.resolve_left hland⟩, rfl⟩

/-- Marking breaks changes no arm. -/
theorem arms_scopeBreak {e : Option ℕ} (h : s.scopes.nodeLoopexit headIdx = some e) :
    tables.arms idx cases (recordsAt s.scopeBreak.nodeGotos headIdx) =
      tables.arms idx cases (recordsAt s.nodeGotos headIdx) := by
  have htargets : (recordsAt s.scopeBreak.nodeGotos headIdx).map GotoRecord.target =
      (recordsAt s.nodeGotos headIdx).map GotoRecord.target := by
    rw [recordsAt_nodeGotos h, List.map_map]
    congr 1
    funext r
    exact GotoRecord.target_reclassify r e
  unfold SwitchTables.arms SwitchTables.defaultCuts
  rw [htargets]

/-- An arm is right where the text goes on to its block, if a break of the head leads there. -/
theorem right_armText {e : Option ℕ} (h : s.scopes.nodeLoopexit headIdx = some e) {brk : Option ℕ}
    {b : ℕ} : (s.scopeBreak.armText headIdx flow (some b)).Right brk k ↔
      (flow = some b → ∀ r ∈ recordsAt s.nodeGotos headIdx, r.target = b → some b = e →
        brk = some b) := by
  have hex : (∃ r ∈ recordsAt s.scopeBreak.nodeGotos headIdx,
      r.isBreak = true ∧ r.target = b) ↔
        ∃ r ∈ recordsAt s.nodeGotos headIdx, r.target = b ∧ some b = e := by
    rw [recordsAt_nodeGotos h]
    simp only [List.mem_map, exists_exists_and_eq_and]
    apply exists_congr
    intro r
    apply and_congr_right
    intro hr
    have hfresh := nodeGotos_fresh_at hr
    by_cases ht : some r.target = e
    · have hmarked : r.reclassify (some e) = { r with isBreak := true } := if_pos ht
      rw [hmarked]
      dsimp only
      constructor
      · rintro ⟨-, rfl⟩
        exact ⟨rfl, ht⟩
      · rintro ⟨htb, -⟩
        exact ⟨rfl, htb⟩
    · have hkept : r.reclassify (some e) = r := if_neg ht
      rw [hkept, hfresh]
      constructor
      · rintro ⟨hf, -⟩
        exact absurd hf Bool.false_ne_true
      · rintro ⟨rfl, he⟩
        exact absurd he ht
  rw [Structured.armText]
  by_cases hflow : flow = some b
  · rw [if_pos hflow]
    by_cases hr : ∃ r ∈ recordsAt s.scopeBreak.nodeGotos headIdx, r.isBreak = true ∧ r.target = b
    · rw [if_pos hr, Text.right_leave]
      obtain ⟨r, hmem, ht, he⟩ := hex.mp hr
      exact ⟨fun hb _ _ _ _ _ => hb, fun hb => hb hflow r hmem ht he⟩
    · rw [if_neg hr]
      apply iff_of_true Text.right_leave_none
      intro _ r hmem ht he
      exact absurd (hex.mpr ⟨r, hmem, ht, he⟩) hr
  · rw [if_neg hflow]
    exact iff_of_true Text.right_goto fun hb => absurd hb hflow

/-- The arms are right where the text goes on to the exit of the switch, if they stand for breaks
of the head. -/
theorem right_arms (h : s.scopes.nodeLoopexit headIdx = some w.exit) {brk : Option ℕ} :
    (statements ((tables.arms idx cases (recordsAt s.nodeGotos headIdx)).map
      (s.scopeBreak.armText headIdx flow))).Right brk k ↔
      ∀ r ∈ recordsAt s.nodeGotos headIdx, tables.suppressed idx cases r = true →
        some r.target = w.exit → flow = w.exit → brk = w.exit := by
  apply (right_statements (P := fun a => a.Right brk none) ?_).trans
  · rw [List.forall_mem_map]
    constructor
    · intro harms r hr hsup ht hflow
      have harm := harms (some r.target) ((mem_arms hr).mpr hsup)
      rw [← ht] at hflow ⊢
      exact (right_armText h).mp harm hflow r hr rfl ht
    · intro hrecords arm harm
      cases arm with
      | none => exact Text.right_leave_none
      | some b =>
        apply (right_armText h).mpr
        rintro hflow r hr rfl he
        rw [he] at hflow ⊢
        exact hrecords r hr ((mem_arms hr).mp harm) he hflow
  · intro a ha k
    obtain ⟨arm, harm, rfl⟩ := List.mem_map.mp ha
    cases arm with
    | none => exact iff_of_true Text.right_leave_none Text.right_leave_none
    | some b => exact (right_armText h).trans (right_armText h).symm

theorem next_arms (arms : List (Option ℕ)) :
    (statements (arms.map (s.scopeBreak.armText headIdx flow))).next w.text w.text =
      Way.fall flow arms w [] := by
  cases arms with
  | nil => rfl
  | cons arm arms =>
    cases arm with
    | none => rfl
    | some b =>
      change ((s.scopeBreak.armText headIdx flow (some b)).next w.text _) =
        if flow = some b then w.text else some b
      rw [Structured.armText]
      by_cases hflow : flow = some b
      · rw [if_pos hflow, if_pos hflow]
        rfl
      · rw [if_neg hflow, if_neg hflow]
        rfl

end Arms

/-- The head of a switch is right where it is clear; the scope of its gotos has the exit of the
switch, but they are printed in the loop around. -/
theorem right_head {cases : List FlowBlock} {head : ℕ}
    (hnode : s.scopes.nodeLoopexit headIdx = some w.exit)
    (hbasic : s.scopes.loopexit head = some w.exit)
    {arms : Text ℕ} (harms : arms.Right w.text w.text ↔
      P ∧ ∀ r ∈ recordsAt s.nodeGotos headIdx, tables.suppressed idx cases r = true →
        some r.target = w.exit → flow = w.exit → w.text = w.exit) :
    (Text.seq
      (.seq (.seq (.block head) (s.scopeBreak.basicText head))
        (statements (((recordsAt s.scopeBreak.nodeGotos headIdx).filter fun r =>
          !tables.suppressed idx cases r).map GotoRecord.statement)))
      (.switch arms)).Right loop.text w.text ↔
      s.BasicClear head ⟨w.exit, loop.text⟩ ∧
        s.HeadClear tables idx headIdx cases flow w loop ∧ P := by
  have hfilter : ((recordsAt s.scopeBreak.nodeGotos headIdx).filter fun r =>
      !tables.suppressed idx cases r) =
      ((recordsAt s.nodeGotos headIdx).filter fun r => !tables.suppressed idx cases r).map
        (GotoRecord.reclassify (some w.exit)) := by
    rw [recordsAt_nodeGotos hnode, List.filter_map]
    congr 2
    funext r
    unfold SwitchTables.suppressed
    dsimp only [Function.comp]
    rw [GotoRecord.target_reclassify]
  have hbasics (k : Option ℕ) : (s.scopeBreak.basicText head).Right loop.text k ↔
      s.BasicClear head ⟨w.exit, loop.text⟩ :=
    @right_basicText s head ⟨w.exit, loop.text⟩ k hbasic
  have hbefore (k : Option ℕ) : (statements ((((recordsAt s.nodeGotos headIdx).filter fun r =>
      !tables.suppressed idx cases r).map (GotoRecord.reclassify (some w.exit))).map
        GotoRecord.statement)).Right loop.text k ↔
      ∀ r ∈ (recordsAt s.nodeGotos headIdx).filter fun r => !tables.suppressed idx cases r,
        r.Clear ⟨w.exit, loop.text⟩ :=
    @right_nodeStatements s headIdx ⟨w.exit, loop.text⟩ k _ fun _ hr => List.mem_of_mem_filter hr
  have hsplit : (∀ r ∈ (recordsAt s.nodeGotos headIdx).filter fun r =>
        !tables.suppressed idx cases r, r.Clear ⟨w.exit, loop.text⟩) ∧
      (∀ r ∈ recordsAt s.nodeGotos headIdx, tables.suppressed idx cases r = true →
        some r.target = w.exit → flow = w.exit → w.text = w.exit) ↔
      s.HeadClear tables idx headIdx cases flow w loop := by
    unfold HeadClear GotoRecord.Clear
    constructor
    · rintro ⟨hout, hin⟩ r hr ht
      by_cases hsup : tables.suppressed idx cases r = true
      · rw [if_pos hsup]
        exact hin r hr hsup ht
      · rw [if_neg hsup]
        apply hout r ?_ ht
        rw [List.mem_filter]
        exact ⟨hr, by simpa using hsup⟩
    · intro hall
      constructor
      · intro r hr ht
        rw [List.mem_filter] at hr
        have hsup : ¬tables.suppressed idx cases r = true := by simpa using hr.2
        have hcase := hall r hr.1 ht
        rwa [if_neg hsup] at hcase
      · intro r hr hsup ht
        have hcase := hall r hr ht
        rwa [if_pos hsup] at hcase
  rw [hfilter, Text.right_seq, Text.right_seq, Text.right_seq, hbasics, hbefore, Text.right_switch,
    harms, ← hsplit]
  simp only [Text.right_block, true_and]
  tauto

mutual

/-- A node of the printed forest is right if and only if it is clear. -/
theorem right_emitStructured (t : FlowBlock) (flow : Option ℕ) (w loop : Way)
    (h : s.Scoped (t.nodePlaces w.exit loop.exit) (t.basicPlaces w.exit loop.exit)) :
    (s.scopeBreak.emitStructured tables t flow).Right loop.text w.text ↔
      s.Clear tables t flow w loop := by
  cases t with
  | basic idx b =>
    obtain ⟨hnode, hrest⟩ := scoped_cons_node.mp h
    obtain ⟨hbasic, -⟩ := scoped_cons_basic.mp hrest
    apply right_node hnode
    rw [Text.right_seq, right_basicText hbasic]
    simp
  | list idx first rest =>
    obtain ⟨hnode, hrest⟩ := scoped_cons_node.mp h
    obtain ⟨hfirst, hlist⟩ := scoped_append.mp hrest
    apply right_node hnode
    rw [Text.right_seq, next_emitList]
    apply and_congr
    · apply right_emitStructured first
      rw [Way.next_exit]
      exact hfirst
    · exact right_emitList rest flow (w.after (recordsAt s.nodeGotos idx)) loop hlist
  | ifThen idx cond body =>
    obtain ⟨hnode, hrest⟩ := scoped_cons_node.mp h
    obtain ⟨hcond, hbody⟩ := scoped_append.mp hrest
    apply right_node hnode
    rw [Text.right_branch]
    apply and_congr
    · exact right_emitStructured cond flow .nowhere loop hcond
    · apply (and_iff_left Text.right_skip).trans
      exact right_emitStructured body flow (w.after (recordsAt s.nodeGotos idx)) loop hbody
  | ifElse idx cond tc fc =>
    obtain ⟨hnode, hrest⟩ := scoped_cons_node.mp h
    obtain ⟨hcond, harms⟩ := scoped_append.mp hrest
    obtain ⟨htc, hfc⟩ := scoped_append.mp harms
    apply right_node hnode
    rw [Text.right_branch]
    apply and_congr
    · exact right_emitStructured cond flow .nowhere loop hcond
    · apply and_congr
      · exact right_emitStructured tc flow (w.after (recordsAt s.nodeGotos idx)) loop htc
      · exact right_emitStructured fc flow (w.after (recordsAt s.nodeGotos idx)) loop hfc
  | whileDo idx cond body =>
    obtain ⟨hnode, hrest⟩ := scoped_cons_node.mp h
    obtain ⟨hcond, hbody⟩ := scoped_append.mp hrest
    apply right_node hnode
    rw [Text.right_loop, next_emitStructured]
    apply and_congr
    · exact right_emitStructured cond (some cond.entryBasic) .nowhere
        (w.after (recordsAt s.nodeGotos idx)) hcond
    · exact right_emitStructured body (some cond.entryBasic) (.into cond.entryBasic)
        (w.after (recordsAt s.nodeGotos idx)) hbody
  | doWhile idx body =>
    obtain ⟨hnode, hbody⟩ := scoped_cons_node.mp h
    apply right_node hnode
    rw [Text.right_doLoop]
    exact right_emitStructured body (some body.exitBasic) .nowhere
      (w.after (recordsAt s.nodeGotos idx)) hbody
  | infLoop idx body =>
    obtain ⟨hnode, hbody⟩ := scoped_cons_node.mp h
    apply right_node hnode
    rw [Text.right_doLoop, if_pos rfl, next_emitStructured]
    exact right_emitStructured body (some body.entryBasic) (.into body.entryBasic)
      (w.after (recordsAt s.nodeGotos idx)) hbody
  | condition idx a b =>
    obtain ⟨hnode, hrest⟩ := scoped_cons_node.mp h
    obtain ⟨ha, hb⟩ := scoped_append.mp hrest
    apply right_node hnode
    rw [Text.right_branch]
    apply and_congr
    · exact right_emitStructured a flow .nowhere loop ha
    · apply (and_iff_left Text.right_skip).trans
      apply right_basicText
      exact hb.2 _ (b.exitBasic_mem loop.exit)
  | switch idx headIdx head cases =>
    obtain ⟨hnode, hrest⟩ := scoped_cons_node.mp h
    obtain ⟨hhead, hrest⟩ := scoped_cons_node.mp hrest
    obtain ⟨hbasic, hcases⟩ := scoped_cons_basic.mp hrest
    apply right_node hnode
    rw [arms_scopeBreak hhead]
    have hnext := @next_arms s headIdx (w.after (recordsAt s.nodeGotos idx)) flow
      (tables.arms idx cases (recordsAt s.nodeGotos headIdx))
    have harms := @right_emitCases cases flow (w.after (recordsAt s.nodeGotos idx)) _ _ hnext hcases
    rw [right_arms hhead] at harms
    exact @right_head s tables idx headIdx (w.after (recordsAt s.nodeGotos idx)) loop flow _ cases
      head hhead hbasic _ harms

/-- So are the components of a list. -/
theorem right_emitList (cs : List FlowBlock) (flow : Option ℕ) (w loop : Way)
    (h : s.Scoped (FlowBlock.nodePlacesList cs w.exit loop.exit)
      (FlowBlock.basicPlacesList cs w.exit loop.exit)) :
    (s.scopeBreak.emitList tables cs flow).Right loop.text w.text ↔
      s.ClearList tables cs flow w loop := by
  cases cs with
  | nil => exact iff_of_true Text.right_skip trivial
  | cons c cs =>
    obtain ⟨hc, hcs⟩ := scoped_append.mp h
    rw [Structured.emitList, Text.right_seq, next_emitList]
    apply and_congr
    · apply right_emitStructured c
      rw [Way.next_exit]
      exact hc
    · exact right_emitList cs flow w loop hcs

/-- So are the cases of a switch. -/
theorem right_emitCases (cs : List FlowBlock) (flow : Option ℕ) (w : Way) {text : Text ℕ}
    {arms : List (Option ℕ)} (htext : text.next w.text w.text = Way.fall flow arms w [])
    (h : s.Scoped (FlowBlock.nodePlacesCases cs w.exit)
      (FlowBlock.basicPlacesCases cs w.exit)) :
    (s.scopeBreak.emitCases tables cs flow text arms.isEmpty).Right w.text w.text ↔
      s.ClearCases tables cs flow arms w ∧ text.Right w.text w.text := by
  cases cs with
  | nil => exact (iff_of_eq (true_and _)).symm
  | cons c cs =>
    obtain ⟨hc, hcs⟩ := scoped_append.mp h
    rw [Structured.emitCases, Text.right_seq, Text.right_seq, ClearCases, and_assoc]
    have hnext : (Text.seq (if tables.isExit c.idx ∧ ¬(cs = [] ∧ arms.isEmpty) then .leave none
        else .skip) (s.scopeBreak.emitCases tables cs flow text arms.isEmpty)).next w.text w.text =
        if tables.isExit c.idx ∧ ¬(cs = [] ∧ arms.isEmpty) then w.text
        else Way.fall flow arms w cs := by
      by_cases hbreak : tables.isExit c.idx ∧ ¬(cs = [] ∧ arms.isEmpty)
      · rw [if_pos hbreak, if_pos hbreak]
        rfl
      · rw [if_neg hbreak, if_neg hbreak]
        exact next_emitCases cs flow htext
    have hplain (k : Option ℕ) : (if tables.isExit c.idx ∧ ¬(cs = [] ∧ arms.isEmpty) then
        Text.leave none else .skip : Text ℕ).Right w.text k := by
      split
      · exact Text.right_leave_none
      · exact Text.right_skip
    rw [hnext, iff_true_intro (hplain _), true_and]
    apply and_congr
    · exact right_emitStructured c flow ⟨w.exit, _⟩ w hc
    · exact right_emitCases cs flow w htext hcs

end

/-- The walk over the roots records the scope of every node and basic block. -/
theorem scoped_roots (s : CollapsedForest) :
    s.Scoped (FlowBlock.nodePlacesList s.roots none none)
      (FlowBlock.basicPlacesList s.roots none none) := by
  have hwalk : s.scopes = ⟨insertAll (FlowBlock.basicPlacesList s.roots none none) fun _ => none,
      insertAll (FlowBlock.nodePlacesList s.roots none none) fun _ => none⟩ :=
    FlowBlock.walkList_eq s.roots none none {}
  unfold Scoped
  rw [hwalk]
  constructor
  · intro p hp
    apply insertAll_of_mem ?_ hp
    rw [FlowBlock.fst_nodePlacesList]
    exact s.ids_nodup
  · intro p hp
    apply insertAll_of_mem ?_ hp
    rw [FlowBlock.fst_basicPlacesList]
    exact s.basics_nodup

/-- `scope_break` drops no label that a goto needs. -/
theorem gotosLabelled (s : CollapsedForest) : s.scopeBreak.GotosLabelled := by
  intro e he r hr hbreak
  apply List.mem_map_of_mem
  rw [List.mem_flatMap]
  refine ⟨e, he, List.mem_filter.mpr ⟨hr, ?_⟩⟩
  rw [hbreak]
  rfl

/-- Every goto printed as a break reaches its target, and the others have their labels, if and only
if the text after each loop and switch that a goto leaves goes on to the block that follows. -/
theorem scopeBreak_right_iff (s : CollapsedForest) (tables : SwitchTables) :
    s.scopeBreak.BreaksReach tables ∧ s.scopeBreak.GotosLabelled ↔ s.AllClear tables := by
  rw [and_iff_left s.gotosLabelled]
  exact right_emitList s.roots none .nowhere .nowhere s.scoped_roots

/-- A loop in an `if` with a goto after it, where another goto leads from the loop to the block
after the `if`. -/
def gotoAfterLoop : CollapsedForest where
  roots :=
    [.list 20 (.basic 0 0)
      [.doWhile 19
        (.list 18
          (.ifElse 17 (.basic 1 1)
            (.list 16
              (.ifThen 15 (.basic 2 2)
                (.whileDo 14 (.basic 3 3) (.list 13 (.basic 4 4) [.basic 5 5])))
              [.basic 6 6])
            (.basic 7 7))
          [.basic 8 8]),
        .basic 9 9]]
  gotos := [(4, [{ target := 6, conditional := true }])]
  nodeGotos := [(14, [{ target := 7, conditional := false }])]
  ids_nodup := by decide
  basics_nodup := by decide
  gotos_fresh := by decide
  nodeGotos_fresh := by decide

/-- The break printed for the goto to block 6 leads to the goto to block 7. -/
theorem gotoAfterLoop_misses : ¬∀ (s : CollapsedForest) (tables : SwitchTables),
    s.scopeBreak.BreaksReach tables ∧ s.scopeBreak.GotosLabelled := by
  intro h
  have hbreak := (h gotoAfterLoop ⟨fun _ => [], fun _ => true⟩).1 (some 6, some 7)
    (by decide) 6 rfl
  cases hbreak

end CollapsedForest

end Mosura
