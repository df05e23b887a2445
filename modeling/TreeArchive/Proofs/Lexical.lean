import TreeArchive.Proofs.RelativeForm
import TreeArchive.Proofs.Resolution

/-!
Paths that say the same. A step to `.` before another step makes no difference, so paths with the
same names lead to the same spot. Without `..` a normal form is known by its names.
-/
namespace TreeArchive

namespace FileSystem

/-- Steps without some of the steps to `.`, of which none was the last. -/
inductive Undotted : List Name → List Name → Prop where
  | nil : Undotted [] []
  | step {name : Name} {steps steps' : List Name} (rest : Undotted steps steps') :
      Undotted (name :: steps) (name :: steps')
  | dot {name : Name} {steps steps' : List Name} (hname : name = Path.dotName)
      (hne : steps' ≠ []) (rest : Undotted steps steps') : Undotted (name :: steps) steps'

variable {fs : FileSystem} {here : Place} {p q : Path} {steps steps' : List Name}

theorem Undotted.append (front : List Name) (h : Undotted steps steps') :
    Undotted (front ++ steps) (front ++ steps') := by
  induction front with
  | nil => exact h
  | cons name rest ih => exact .step ih

theorem Undotted.isEmpty (h : Undotted steps steps') : steps'.isEmpty = steps.isEmpty := by
  cases h with
  | nil => rfl
  | step rest => rfl
  | dot hname hne rest => simpa using hne

/-- The same spot is found, or the same failure. -/
theorem walk_undotted (h : Undotted steps steps') (follow : Bool) (budget : Nat) (here : Place) :
    fs.walk follow budget here steps' = fs.walk follow budget here steps := by
  induction budget, here, steps using fs.walk_induct generalizing steps' with
  | done budget here =>
    cases h
    rfl
  | dot budget here rest hdir ih =>
    rw [walk_dot hdir]
    cases h with
    | step hrest =>
      rw [walk_dot hdir]
      exact ih hrest
    | dot hname hne hrest => exact ih hrest
  | dotDot budget here rest hdir ih =>
    cases h with
    | step hrest =>
      rw [walk_dotDot hdir, walk_dotDot hdir]
      exact ih hrest
    | dot hname hne hrest => exact absurd hname (by decide)
  | long budget here step rest hdir hdot hdotDot hlong =>
    cases h with
    | step hrest => rw [walk_long hdir hdot hdotDot hlong, walk_long hdir hdot hdotDot hlong]
    | dot hname hne hrest => exact absurd hname hdot
  | missing budget here step rest hdir hstep hchild =>
    cases h with
    | step hrest =>
      rw [walk_missing hdir hstep hchild, walk_missing hdir hstep hchild, hrest.isEmpty]
    | dot hname hne hrest => exact absurd hname hstep.ne_dot
  | link budget here step rest there target hdir hstep hchild hlink ih =>
    cases h with
    | step hrest =>
      rw [walk_link hdir hstep hchild hlink, walk_link hdir hstep hchild hlink, hrest.isEmpty]
      cases budget with
      | zero => rfl
      | succ left => simp only [ih left rfl (hrest.append target.steps)]
    | dot hname hne hrest => exact absurd hname hstep.ne_dot
  | node budget here step rest there hdir hstep hchild hlink ih =>
    cases h with
    | step hrest =>
      rw [walk_node hdir hstep hchild hlink, walk_node hdir hstep hchild hlink]
      exact ih hrest
    | dot hname hne hrest => exact absurd hname hstep.ne_dot
  | blocked budget here step rest hblocked =>
    have hsome : steps' ≠ [] := by
      cases h with
      | step hrest => simp
      | dot hname hne hrest => exact hne
    obtain ⟨step', rest', rfl⟩ := List.exists_cons_of_ne_nil hsome
    rw [walk_not_directory hblocked, walk_not_directory hblocked]

theorem undotted_filter (h : steps.getLast? ≠ some Path.dotName) :
    Undotted steps (steps.filter (· != Path.dotName)) := by
  induction steps with
  | nil => exact .nil
  | cons name rest ih =>
    rcases List.eq_nil_or_concat' rest with rfl | ⟨front, last, rfl⟩
    · have hname : name ≠ Path.dotName := fun heq => h (by rw [heq]; rfl)
      rw [List.filter_cons_of_pos (by simpa using hname)]
      exact .step .nil
    · have hlast : last ≠ Path.dotName := by
        rw [← List.cons_append, List.getLast?_concat] at h
        exact fun heq => h (congrArg some heq)
      have hrest := ih (by simpa using hlast)
      by_cases hname : name = Path.dotName
      · rw [List.filter_cons_of_neg (by simp [hname])]
        refine .dot hname ?_ hrest
        rw [List.filter_append]
        exact List.append_ne_nil_of_right_ne_nil _ (by simp [hlast])
      · rw [List.filter_cons_of_pos (by simpa using hname)]
        exact .step hrest

end FileSystem

namespace Path

variable {p q : Path}

theorem names_eq_filter (p : Path) : p.names = p.steps.filter (· != dotName) := by
  have hnames : p.names = p.stepNames.filter (· != dotName) := by
    rw [names, stepNames, List.filter_filter]
    apply List.filter_congr
    intro part hpart
    rw [isBlank, Bool.not_or, Bool.and_comm]
    rfl
  rcases p.steps_eq with h | h
  · rw [h, hnames]
  · rw [h, List.filter_append, hnames]
    simp

theorem names_below {names : List Name} (h : ∀ n ∈ names, Ordinary n) :
    (p.below names).names = p.names ++ names := by
  induction names generalizing p with
  | nil => exact (List.append_nil _).symm
  | cons name rest ih =>
    rw [List.forall_mem_cons] at h
    have hchild : (p.child name).names = p.names ++ [name] := by
      have hnames (p : Path) : p.names = p.stepNames.filter (· != dotName) := by
        rw [names_eq_filter]
        rcases p.steps_eq with h | h <;> simp [h]
      rw [hnames, stepNames_child h.1, List.filter_append, ← hnames]
      simp [h.1.ne_dot]
    rw [below_cons, ih h.2, hchild, List.append_assoc, List.singleton_append]

theorem isAbsolute_below {names : List Name} (h : ∀ n ∈ names, Ordinary n) (hp : p.bytes ≠ []) :
    (p.below names).isAbsolute = p.isAbsolute := by
  induction names generalizing p with
  | nil => rfl
  | cons name rest ih =>
    rw [List.forall_mem_cons] at h
    have hchild : (p.child name).bytes ≠ [] := by
      rcases child_bytes (d := p) h.1 with ⟨hbytes, -⟩ | ⟨hbytes, -⟩ <;> simp [hbytes, hp]
    rw [below_cons, ih h.2 hchild, isAbsolute_child h.1 hp]

theorem ofName_injective : Function.Injective Component.ofName := by
  intro a b h
  by_cases ha : a = dotDotName <;> by_cases hb : b = dotDotName <;>
    simp_all [Component.ofName]

/-- The components of a path but for a leading `.` say where it starts and name its steps. -/
theorem filter_components (p : Path) : p.components.filter (· != .current) =
    (if p.isAbsolute then [.root] else []) ++ p.names.map Component.ofName := by
  have hnamed : (p.names.map Component.ofName).filter (· != .current) =
      p.names.map Component.ofName := by
    rw [List.filter_eq_self]
    intro c hc
    obtain ⟨name, -, rfl⟩ := List.mem_map.1 hc
    unfold Component.ofName
    split <;> rfl
  cases habsolute : p.isAbsolute with
  | true =>
    rw [components_of_isAbsolute habsolute, List.filter_cons_of_pos rfl, hnamed]
    rfl
  | false =>
    rw [components_of_relative habsolute, List.filter_append, hnamed]
    split <;> rfl

theorem names_eq_of_components
    (h : p.components.filter (· != .current) = q.components.filter (· != .current)) :
    p.isAbsolute = q.isAbsolute ∧ p.names = q.names := by
  have hroot (names : List Name) : .root ∉ names.map Component.ofName := by
    intro hmem
    obtain ⟨name, -, hname⟩ := List.mem_map.1 hmem
    unfold Component.ofName at hname
    split at hname <;> cases hname
  rw [filter_components, filter_components] at h
  cases hp : p.isAbsolute <;> cases hq : q.isAbsolute <;>
    simp only [hp, hq, if_true, Bool.false_eq_true, if_false, List.nil_append,
      List.singleton_append] at h
  · exact ⟨rfl, List.map_injective_iff.2 ofName_injective h⟩
  · exact absurd (h ▸ List.mem_cons_self) (hroot _)
  · exact absurd (h ▸ List.mem_cons_self) (hroot _)
  · exact ⟨rfl, List.map_injective_iff.2 ofName_injective (List.cons.inj h).2⟩

/-- Without `..` nothing is taken back. -/
theorem foldl_normalStep {cs : List Component} (h : .parent ∉ cs) (met : List Component) :
    cs.foldl normalStep met = (cs.filter (· != .current)).reverse ++ met := by
  induction cs generalizing met with
  | nil => rfl
  | cons c rest ih =>
    rw [List.mem_cons, not_or] at h
    rw [List.foldl_cons, ih h.2]
    cases c with
    | root => simp [normalStep]
    | current => simp [normalStep]
    | parent => exact absurd rfl h.1
    | normal name => simp [normalStep]

/-- The text of a root and names, or of names, has these names again. -/
theorem ofComponents_names {absolute : Bool} {names : List Name}
    (h : ∀ n ∈ names, Ordinary n) :
    let p := ofComponents ((if absolute then [.root] else []) ++ names.map .normal)
    p.isAbsolute = absolute ∧ p.names = names := by
  have hfilter : names.filter (!isBlank ·) = names := by
    rw [List.filter_eq_self]
    intro n hn
    simp [(h n hn).nonblank]
  have htexts : (names.map Component.normal).map Component.text = names := by
    rw [List.map_map]
    exact List.map_id names
  cases names with
  | nil => cases absolute <;> exact ⟨rfl, rfl⟩
  | cons first rest =>
    have hslash : ∀ part ∈ first :: rest, slash ∉ part := fun part hpart =>
      (h part hpart).slash_not_mem
    cases absolute with
    | true =>
      have htext : ofComponents ([.root] ++ (first :: rest).map Component.normal) =
          ⟨slash :: Text.join slash (first :: rest)⟩ := by
        rw [ofComponents]
        · simp only [List.map_append, htexts]
          rfl
        · simp
        · simp
      simp only [if_true]
      rw [htext]
      refine ⟨rfl, ?_⟩
      have hsegments : segments ⟨slash :: Text.join slash (first :: rest)⟩ =
          [] :: segments ⟨Text.join slash (first :: rest)⟩ := by simp [segments, Text.pieces]
      rw [Path.names, hsegments, segments_join (by simp) hslash,
        List.filter_cons_of_neg (by simp [isBlank]), hfilter]
    | false =>
      have htext : ofComponents ((first :: rest).map Component.normal) =
          ⟨Text.join slash (first :: rest)⟩ := by
        rw [ofComponents]
        · rw [htexts]
        · simp
        · simp
      simp only [Bool.false_eq_true, if_false, List.nil_append]
      rw [htext]
      constructor
      · have hfirst := isAbsolute_of_ordinary (h first List.mem_cons_self)
        obtain ⟨b, name, rfl⟩ := List.exists_cons_of_ne_nil (h first List.mem_cons_self).ne_nil
        cases rest <;> exact hfirst
      · rw [Path.names, segments_join (by simp) hslash, hfilter]

theorem ordinary_of_mem_names {name : Name} (hp : .parent ∉ p.components) (h : name ∈ p.names) :
    Ordinary name := by
  obtain ⟨hsegment, hblank⟩ := List.mem_filter.1 h
  refine ⟨by simpa using hblank, ?_, slash_not_mem_of_mem_segments hsegment⟩
  rintro rfl
  have hmem : Component.ofName dotDotName ∈ p.components.filter (· != .current) := by
    rw [filter_components]
    exact List.mem_append_right _ (List.mem_map_of_mem h)
  exact hp (List.mem_of_mem_filter hmem)

theorem normalize_names (hp : .parent ∉ p.components) :
    p.normalize.isAbsolute = p.isAbsolute ∧ p.normalize.names = p.names := by
  have hordinary : ∀ n ∈ p.names, Ordinary n := fun n => ordinary_of_mem_names hp
  have hnamed : p.names.map Component.ofName = p.names.map .normal :=
    List.map_congr_left fun n hn => (hordinary n hn).ofName
  have hnormal : p.normalize =
      ofComponents ((if p.isAbsolute then [.root] else []) ++ p.names.map .normal) := by
    rw [normalize, foldl_normalStep hp, List.append_nil, List.reverse_reverse, filter_components,
      hnamed]
  rw [hnormal]
  exact ofComponents_names hordinary

/-- Paths without `..` that have the same normal form start at the same place and have the same
names. -/
theorem names_eq_of_normalize (hp : .parent ∉ p.components) (hq : .parent ∉ q.components)
    (h : p.normalize = q.normalize) : p.isAbsolute = q.isAbsolute ∧ p.names = q.names := by
  obtain ⟨habsolute, hnames⟩ := normalize_names hp
  obtain ⟨habsolute', hnames'⟩ := normalize_names hq
  rw [h] at habsolute hnames
  exact ⟨habsolute.symm.trans habsolute', hnames.symm.trans hnames'⟩

end Path

namespace FileSystem

variable {fs : FileSystem} {p q : Path}

/-- Paths that start at the same place and have the same names lead to the same spot, if no step to
`.` stands at their ends and both are paths to be looked up at all. -/
theorem locate_eq_of_names (hcheck : checkPath p = .ok ()) (hcheck' : checkPath q = .ok ())
    (hlast : p.steps.getLast? ≠ some Path.dotName) (hlast' : q.steps.getLast? ≠ some Path.dotName)
    (habsolute : p.isAbsolute = q.isAbsolute) (hnames : p.names = q.names) (follow : Bool) :
    fs.locate p follow = fs.locate q follow := by
  have hstart : fs.start p = fs.start q := by
    rw [start, start, habsolute]
  have hwalk (here : Place) : fs.walk follow maxLinks here p.steps =
      fs.walk follow maxLinks here q.steps := by
    rw [← walk_undotted (undotted_filter hlast), ← walk_undotted (undotted_filter hlast'),
      ← Path.names_eq_filter, ← Path.names_eq_filter, hnames]
  rw [locate, locate, hcheck, hcheck', resolve, resolve, hstart]
  simp only [hwalk]

end FileSystem

end TreeArchive
