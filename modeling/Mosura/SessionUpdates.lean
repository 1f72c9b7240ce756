import Mosura.Session

/-! When no update of a session directory is lost. -/

namespace Mosura
namespace Session

variable {D : Type}

def digests (inputs : List (InputRow D)) : List D := inputs.map InputRow.digest

/-- What a session has in memory is on disk. -/
def Listed (s : System D) (x : Session D) : Prop :=
  ∀ r ∈ x.inputs, r.digest ∈ digests s.dir.inputs

/-- What holds of session `i` in each phase; from `listing` and `storing` on it has the lock. -/
def ProcOk (s : System D) (i : ℕ) (p : Proc D) : Prop :=
  match p.phase with
  | .opening | .idle | .setting _ _ => Listed s p.session
  | .adding row _ => Listed s p.session ∧ row.digest ∉ digests p.session.inputs
  | .listing row => s.lock = some i ∧ p.session.inputs = s.dir.inputs ++ [row] ∧
      row.digest ∉ digests s.dir.inputs
  | .listed row => s.lock = some i ∧ Listed s p.session ∧ row.digest ∈ digests s.dir.inputs
  | .storing key value => s.lock = some i ∧ Listed s p.session ∧
      p.session.config = s.dir.config.set key value
  | .stored => s.lock = some i ∧ Listed s p.session

structure Inv (s : System D) : Prop where
  nodup : (digests s.dir.inputs).Nodup
  procs : ∀ i p, s.procs i = some p → ProcOk s i p
  added : ∀ d ∈ s.added, d ∈ digests s.dir.inputs
  config : ∀ key, KeyMap.lookup key s.dir.config = lastValue key s.sets

theorem Listed.mono {s s' : System D} {x : Session D} (h : Listed s x)
    (hd : ∀ d ∈ digests s.dir.inputs, d ∈ digests s'.dir.inputs) : Listed s' x :=
  fun r hr => hd _ (h r hr)

/-- A session that is not acting stays as it is: the lock keeps the others from writing while it
holds it. -/
theorem ProcOk.mono {s s' : System D} {j : ℕ} {p : Proc D} (h : ProcOk s j p)
    (hd : ∀ d ∈ digests s.dir.inputs, d ∈ digests s'.dir.inputs)
    (hlock : s.lock = some j → s'.lock = some j ∧ s'.dir.inputs = s.dir.inputs ∧
      s'.dir.config = s.dir.config) : ProcOk s' j p := by
  obtain ⟨x, phase⟩ := p
  cases phase with
  | opening | idle | setting => exact Listed.mono h hd
  | adding => exact ⟨Listed.mono h.1 hd, h.2⟩
  | listing =>
    obtain ⟨hl, hi, -⟩ := hlock h.1
    refine ⟨hl, ?_⟩
    rw [hi]
    exact h.2
  | listed => exact ⟨(hlock h.1).1, Listed.mono h.2.1 hd, hd _ h.2.2⟩
  | storing =>
    obtain ⟨hl, -, hc⟩ := hlock h.1
    refine ⟨hl, Listed.mono h.2.1 hd, ?_⟩
    rw [hc]
    exact h.2.2
  | stored => exact ⟨(hlock h.1).1, Listed.mono h.2 hd⟩

/-- An action of session `i` keeps the invariant if what it leaves of `i` is right and it has kept
to the lock. -/
theorem Inv.setProc {s t : System D} (h : Inv s) (i : ℕ) {x : Session D} {phase : Phase D}
    (hprocs : t.procs = s.procs) (hnodup : (digests t.dir.inputs).Nodup)
    (hd : ∀ d ∈ digests s.dir.inputs, d ∈ digests t.dir.inputs)
    (hlock : ∀ j ≠ i, s.lock = some j → t.lock = some j ∧ t.dir.inputs = s.dir.inputs ∧
      t.dir.config = s.dir.config)
    (hadded : ∀ d ∈ t.added, d ∈ digests t.dir.inputs)
    (hconfig : ∀ key, KeyMap.lookup key t.dir.config = lastValue key t.sets)
    (hx : ProcOk t i ⟨x, phase⟩) : Inv (t.setProc i x phase) := by
  refine ⟨hnodup, fun j p hj => ?_, hadded, hconfig⟩
  change Function.update t.procs i _ j = some p at hj
  by_cases hji : j = i
  · subst hji
    rw [Function.update_self] at hj
    obtain rfl := Option.some.inj hj
    exact hx
  · rw [Function.update_of_ne hji, hprocs] at hj
    exact (h.procs j p hj).mono hd (hlock j hji)

theorem lastValue_append (key k v : String) (sets : List (String × String)) :
    lastValue key (sets ++ [(k, v)]) =
      if key = k then (if v = "" then none else some v) else lastValue key sets := by
  unfold lastValue
  rw [List.reverse_append, List.reverse_singleton, List.singleton_append]
  by_cases hk : key = k
  · rw [List.find?_cons_of_pos (by simpa using hk.symm), if_pos hk]
  · rw [List.find?_cons_of_neg (by simpa using Ne.symm hk), if_neg hk]

theorem lookup_set (key k v : String) (config : Config) :
    KeyMap.lookup key (config.set k v) =
      if key = k then (if v = "" then none else some v) else KeyMap.lookup key config := by
  unfold Config.set
  split_ifs with hv hk hk
  · rw [KeyMap.lookup_erase, if_pos hk]
  · rw [KeyMap.lookup_erase, if_neg hk]
  · rw [KeyMap.lookup_insert, if_pos hk]
  · rw [KeyMap.lookup_insert, if_neg hk]

variable [DecidableEq D] {host : SessionHost D}

theorem storeContent_inputs (dir : SessionDir D) (d : D) (bytes : List UInt8) :
    (storeContent dir d bytes).inputs = dir.inputs ∧
      (storeContent dir d bytes).config = dir.config := by
  unfold storeContent
  split_ifs
  · exact ⟨rfl, rfl⟩
  · exact ⟨rfl, rfl⟩

theorem mem_digests_of_any {x : Session D} {s : System D} {d : D} (hx : Listed s x)
    (h : x.inputs.any (·.digest = d) = true) : d ∈ digests s.dir.inputs := by
  obtain ⟨r, hr, hd⟩ := List.any_eq_true.mp h
  exact of_decide_eq_true hd ▸ hx r hr

theorem not_mem_digests_of_any {x : Session D} {d : D}
    (h : ¬x.inputs.any (·.digest = d) = true) : d ∉ digests x.inputs := by
  intro hd
  obtain ⟨r, hr, rfl⟩ := List.mem_map.mp hd
  exact h (List.any_eq_true.mpr ⟨r, hr, decide_eq_true rfl⟩)

/-- One action of a current session keeps the invariant. -/
theorem Inv.step {s s' : System D} {a : Action} (h : Inv s) (hc : Current s a)
    (hs : Session.step host s a = some s') : Inv s' := by
  have hsame : ∀ j, s.lock = some j → s.lock = some j ∧ s.dir.inputs = s.dir.inputs ∧
      s.dir.config = s.dir.config := fun j hj => ⟨hj, rfl, rfl⟩
  cases a with
  | openInputs i =>
    simp only [Session.step] at hs
    split at hs
    · obtain rfl := Option.some.inj hs
      refine h.setProc i rfl h.nodup (fun _ hd => hd) (fun j _ => hsame j) h.added h.config ?_
      exact fun r hr => List.mem_map_of_mem hr
    · cases hs
  | openConfig i =>
    simp only [Session.step] at hs
    split at hs
    · rename_i x hp
      obtain rfl := Option.some.inj hs
      have hx : Listed s x := h.procs i _ hp
      exact h.setProc i rfl h.nodup (fun _ hd => hd) (fun j _ => hsame j) h.added h.config hx
    · cases hs
  | addInput i bytes filename label now =>
    simp only [Session.step] at hs
    split at hs
    · rename_i x hp
      have hx : Listed s x := h.procs i _ hp
      split_ifs at hs with hany
      · obtain rfl := Option.some.inj hs
        refine ⟨h.nodup, h.procs, fun d hd => ?_, h.config⟩
        rcases List.mem_append.mp hd with hd | hd
        · exact h.added d hd
        · rw [List.mem_singleton.mp hd]
          exact mem_digests_of_any hx hany
      · obtain rfl := Option.some.inj hs
        exact h.setProc i rfl h.nodup (fun _ hd => hd) (fun j _ => hsame j) h.added h.config
          ⟨hx, not_mem_digests_of_any hany⟩
    · cases hs
  | configSet i key value =>
    simp only [Session.step] at hs
    split at hs
    · rename_i x hp
      have hx : Listed s x := h.procs i _ hp
      obtain rfl := Option.some.inj hs
      exact h.setProc i rfl h.nodup (fun _ hd => hd) (fun j _ => hsame j) h.added h.config hx
    · cases hs
  | acquire i =>
    simp only [Session.step] at hs
    split_ifs at hs with hlock
    have hfree : ∀ j, s.lock ≠ some j := fun j hj => hlock (by rw [hj]; rfl)
    split at hs
    · rename_i x row bytes hp
      obtain rfl := Option.some.inj hs
      obtain ⟨hx, hnew⟩ := h.procs i _ hp
      have hcur : x.inputs = s.dir.inputs := by
        simpa only [Current, hp] using hc
      obtain ⟨hin, hcf⟩ := storeContent_inputs s.dir row.digest bytes
      rw [hcur] at hnew
      have hok : ProcOk { s with lock := some i, dir := storeContent s.dir row.digest bytes } i
          ⟨{ x with inputs := x.inputs ++ [row] }, .listing row⟩ := by
        refine ⟨rfl, ?_, ?_⟩
        · change x.inputs ++ [row] = (storeContent s.dir row.digest bytes).inputs ++ [row]
          rw [hin, hcur]
        · change row.digest ∉ digests (storeContent s.dir row.digest bytes).inputs
          rw [hin]
          exact hnew
      refine h.setProc i rfl ?_ ?_ (fun j _ hj => absurd hj (hfree j)) ?_ ?_ hok
      · change (digests (storeContent s.dir row.digest bytes).inputs).Nodup
        rw [hin]
        exact h.nodup
      · intro d hd
        change d ∈ digests (storeContent s.dir row.digest bytes).inputs
        rw [hin]
        exact hd
      · intro d hd
        change d ∈ digests (storeContent s.dir row.digest bytes).inputs
        rw [hin]
        exact h.added d hd
      · intro key
        change KeyMap.lookup key (storeContent s.dir row.digest bytes).config = _
        rw [hcf]
        exact h.config key
    · rename_i x key value hp
      obtain rfl := Option.some.inj hs
      have hx : Listed s x := h.procs i _ hp
      have hcur : x.config = s.dir.config.set key value := by
        simpa only [Current, hp] using hc
      exact h.setProc i rfl h.nodup (fun _ hd => hd) (fun j _ hj => absurd hj (hfree j)) h.added
        h.config ⟨rfl, hx, hcur⟩
    · cases hs
  | write i =>
    simp only [Session.step] at hs
    split at hs
    · rename_i x row hp
      obtain rfl := Option.some.inj hs
      obtain ⟨hlock, hin, hnew⟩ := h.procs i _ hp
      have hin' : x.inputs = s.dir.inputs ++ [row] := hin
      have hdig : digests x.inputs = digests s.dir.inputs ++ [row.digest] := by
        rw [hin']
        exact List.map_append
      have hmono : ∀ d ∈ digests s.dir.inputs, d ∈ digests x.inputs := fun d hd =>
        hdig ▸ List.mem_append_left _ hd
      have hother : ∀ j ≠ i, s.lock ≠ some j := fun j hj hl =>
        hj (Option.some.inj (hl.symm.trans hlock))
      refine h.setProc i rfl ?_ hmono (fun j hj hl => absurd hl (hother j hj))
        (fun d hd => hmono d (h.added d hd)) h.config ⟨hlock, fun r hr => List.mem_map_of_mem hr, ?_⟩
      · change (digests x.inputs).Nodup
        rw [hdig]
        refine List.nodup_append.mpr ⟨h.nodup, List.nodup_singleton _, fun d hd d' hd' heq => ?_⟩
        rw [heq, List.mem_singleton.mp hd'] at hd
        exact hnew hd
      · change row.digest ∈ digests x.inputs
        rw [hdig]
        exact List.mem_append_right _ List.mem_cons_self
    · rename_i x key value hp
      obtain rfl := Option.some.inj hs
      obtain ⟨hlock, hx, hcur⟩ := h.procs i _ hp
      have hother : ∀ j ≠ i, s.lock ≠ some j := fun j hj hl =>
        hj (Option.some.inj (hl.symm.trans hlock))
      refine h.setProc i rfl h.nodup (fun _ hd => hd) (fun j hj hl => absurd hl (hother j hj))
        h.added (fun k => ?_) ⟨hlock, hx⟩
      change KeyMap.lookup k x.config = lastValue k (s.sets ++ [(key, value)])
      have hcur' : x.config = s.dir.config.set key value := hcur
      rw [hcur', lookup_set, lastValue_append, h.config]
    · cases hs
  | release i =>
    simp only [Session.step] at hs
    split at hs
    · rename_i x row hp
      obtain rfl := Option.some.inj hs
      obtain ⟨hlock, hx, hrow⟩ := h.procs i _ hp
      have hother : ∀ j ≠ i, s.lock ≠ some j := fun j hj hl =>
        hj (Option.some.inj (hl.symm.trans hlock))
      refine h.setProc i rfl h.nodup (fun _ hd => hd) (fun j hj hl => absurd hl (hother j hj))
        (fun d hd => ?_) h.config hx
      rcases List.mem_append.mp hd with hd | hd
      · exact h.added d hd
      · rw [List.mem_singleton.mp hd]
        exact hrow
    · rename_i x hp
      obtain rfl := Option.some.inj hs
      obtain ⟨hlock, hx⟩ := h.procs i _ hp
      have hother : ∀ j ≠ i, s.lock ≠ some j := fun j hj hl =>
        hj (Option.some.inj (hl.symm.trans hlock))
      exact h.setProc i rfl h.nodup (fun _ hd => hd) (fun j hj hl => absurd hl (hother j hj))
        h.added h.config hx
    · cases hs

theorem CurrentRun.inv {s : System D} (h : CurrentRun host s) : Inv s := by
  induction h with
  | init => exact ⟨List.nodup_nil, nofun, nofun, fun _ => rfl⟩
  | step _ hc hs ih => exact ih.step hc hs

theorem NoUpdateLost.listed {s : System D} (h : NoUpdateLost s) {d : D} (hd : d ∈ s.added) :
    d ∈ digests s.dir.inputs :=
  List.count_pos_iff.mp (Nat.lt_of_lt_of_eq one_pos (h.1 d hd).symm)

end Session
end Mosura
