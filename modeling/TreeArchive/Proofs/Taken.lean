import TreeArchive.Proofs.Run
import TreeArchive.Proofs.Stored

/-!
The entries that a run takes from its source. Pulling from a walk while the archive grows, a run
takes what the walk yields on the file system as it was when the archive was created.
-/
namespace TreeArchive

open FileSystem

namespace Walk

/-- No walk yields more items than it weighs. -/
theorem length_items_le (fs : FileSystem) (w : Walk) : (w.items fs).length ≤ w.weight fs := by
  induction hweight : w.weight fs using Nat.strongRecOn generalizing w with
  | ind weight ih =>
    subst hweight
    cases hnext : w.next fs with
    | none => simp [items_of_next_eq_none hnext]
    | some pulled =>
      obtain ⟨i, w'⟩ := pulled
      have hless := weight_next hnext
      have hrest := ih _ hless w' rfl
      rw [items_of_next hnext, List.length_cons]
      omega

end Walk

namespace Pack

/-- The entries that a run takes from its source, each with the file system at that moment. -/
def taken {σ : Type} (s : Settings) (source : Source σ) :
    Nat → σ → Run → List (FileSystem × Entry)
  | 0, _, _ => []
  | limit + 1, state, run =>
    match source.pull run.fs state with
    | (_, none) => []
    | (_, some (.error _, _)) => []
    | (fs, some (.ok entry, state)) =>
      let added := addFile s { run with fs := fs } entry
      match added.result with
      | .error _ => [(fs, entry)]
      | .ok _ => (fs, entry) :: taken s source limit state added.run

/-- A run tells of each entry that it takes, and of no other. -/
theorem started_eq_taken {σ : Type} (s : Settings) (source : Source σ) (limit : Nat) (state : σ)
    (run : Run) (report : Report) :
    (addAll s source limit state run report).2.1.filterMap Event.started? =
      (taken s source limit state run).map fun t => t.2.relative := by
  fun_induction addAll s source limit state run report with
  | case1 => rfl
  | case2 limit state run report fs hpull => simp [taken, hpull]
  | case3 limit state run report fs f state' hpull => simp [taken, hpull]
  | case4 limit state run report fs entry state' hpull added events f hresult =>
    have hstarted : events.filterMap Event.started? = [entry.relative] :=
      congrArg (entry.relative :: ·) (filterMap_started?_bytes added.written)
    have hfailed : (addFile s ⟨fs, run.output, run.writer⟩ entry).result = .error f := hresult
    simp [taken, hpull, hfailed, hstarted]
  | case5 limit state run report fs entry state' hpull added events read hresult run' more result
      hrest ih =>
    have hstarted : events.filterMap Event.started? = [entry.relative] :=
      congrArg (entry.relative :: ·) (filterMap_started?_bytes added.written)
    have hadded : (addFile s ⟨fs, run.output, run.writer⟩ entry).result = .ok read := hresult
    have hskip : (Event.completed entry.relative :: more).filterMap Event.started? =
        more.filterMap Event.started? := rfl
    rw [hrest] at ih
    simp only at ih
    simp [taken, hpull, hadded, hstarted, hskip, ih, added]

/-- What a run takes from a walk, the walk yields on the file system from which the run started. -/
theorem mem_items_of_mem_taken {s : Settings} {limit : Nat} {w : Walk} {run : Run}
    {t : FileSystem × Entry} (h : t ∈ taken s walking limit w run) :
    t.1.bare = run.fs.bare ∧ unsized (.ok t.2) ∈ (w.items run.fs).map unsized := by
  induction limit generalizing w run with
  | zero => cases h
  | succ limit ih =>
    cases hnext : w.next run.fs with
    | none => simp [taken, walking, hnext] at h
    | some pulled =>
      obtain ⟨item, w'⟩ := pulled
      have hitems := Walk.items_of_next hnext
      cases item with
      | error f => simp [taken, walking, hnext] at h
      | ok entry =>
        have hfirst : unsized (.ok entry) ∈ (w.items run.fs).map unsized := by
          rw [hitems]
          exact List.mem_cons_self
        obtain ⟨-, hbare, -⟩ := addFile_frame s run entry
        simp only [taken, walking, hnext] at h
        split at h
        · obtain rfl := List.mem_singleton.1 h
          exact ⟨rfl, hfirst⟩
        · rcases List.mem_cons.1 h with rfl | h
          · exact ⟨rfl, hfirst⟩
          · -- only files have changed since, so the rest of the walk is what it was
            obtain ⟨hlater, hmem⟩ := ih h
            refine ⟨hlater.trans hbare, ?_⟩
            rw [Walk.items_of_bare_eq hbare w'] at hmem
            rw [hitems]
            exact List.mem_cons_of_mem _ hmem

/-- A run that succeeds has taken all that the walk yields. -/
theorem taken_of_success {s : Settings} {limit : Nat} {w : Walk} {run : Run} {report r : Report}
    (hlimit : (w.items run.fs).length < limit)
    (hok : (addAll s walking limit w run report).2.2 = .ok r) :
    (taken s walking limit w run).map (fun t => unsized (.ok t.2)) =
      (w.items run.fs).map unsized := by
  induction limit generalizing w run report with
  | zero => omega
  | succ limit ih =>
    cases hnext : w.next run.fs with
    | none => simp [taken, walking, hnext, Walk.items_of_next_eq_none hnext]
    | some pulled =>
      obtain ⟨item, w'⟩ := pulled
      have hitems := Walk.items_of_next hnext
      cases item with
      | error f => simp [addAll, walking, hnext] at hok
      | ok entry =>
        obtain ⟨-, hbare, -⟩ := addFile_frame s run entry
        have hrest := Walk.items_of_bare_eq hbare w'
        -- as many items are left on the changed file system, one less than before
        have hlength : (w'.items (addFile s run entry).run.fs).length < limit := by
          have := congrArg List.length hrest
          rw [hitems, List.length_cons] at hlimit
          simp only [List.length_map] at this
          omega
        cases hresult : (addFile s run entry).result with
        | error f => simp [addAll, walking, hnext, hresult] at hok
        | ok read =>
          simp only [addAll, walking, hnext, hresult] at hok
          simp only [taken, walking, hnext, hresult, List.map_cons, hitems]
          exact congrArg _ ((ih hlength hok).trans hrest)

end Pack

end TreeArchive
