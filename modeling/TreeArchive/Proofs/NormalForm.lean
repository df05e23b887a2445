import TreeArchive.Proofs.Lexical

/-!
What a normal form looks like. It is a root and names, or some steps up and then names: whichever
component comes next, what has been met keeps this shape.
-/
namespace TreeArchive

namespace Path

variable {p q : Path} {absolute : Bool}

/-- How a normal form starts: at the root, or so many steps up. -/
def lead (absolute : Bool) (ups : Nat) : List Component :=
  if absolute then [.root] else List.replicate ups .parent

/-- Components, the latest first, that are names behind the start of a normal form. -/
def Settled (absolute : Bool) (met : List Component) : Prop :=
  ∃ (ups : Nat) (names : List Name), (∀ n ∈ names, Ordinary n) ∧
    met = names.map .normal ++ lead absolute ups

theorem Settled.step {met : List Component} {c : Component} (h : Settled absolute met)
    (hroot : c ≠ .root) (hname : ∀ n, c = .normal n → Ordinary n) :
    Settled absolute (normalStep met c) := by
  obtain ⟨ups, names, hnames, rfl⟩ := h
  cases c with
  | root => exact absurd rfl hroot
  | current =>
    refine ⟨ups, names, hnames, ?_⟩
    rw [normalStep]
  | normal n =>
    refine ⟨ups, n :: names, List.forall_mem_cons.2 ⟨hname n rfl, hnames⟩, ?_⟩
    simp [normalStep]
  | parent =>
    cases names with
    | cons n rest =>
      -- a name is taken back
      exact ⟨ups, rest, (List.forall_mem_cons.1 hnames).2, rfl⟩
    | nil =>
      cases absolute with
      | true => exact ⟨ups, [], hnames, rfl⟩
      | false =>
        refine ⟨ups + 1, [], hnames, ?_⟩
        cases ups <;> rfl

theorem Settled.foldl {met cs : List Component} (h : Settled absolute met)
    (hcs : ∀ c ∈ cs, c ≠ .root ∧ ∀ n, c = .normal n → Ordinary n) :
    Settled absolute (cs.foldl normalStep met) := by
  induction cs generalizing met with
  | nil => exact h
  | cons c rest ih =>
    rw [List.forall_mem_cons] at hcs
    exact ih (h.step hcs.1.1 hcs.1.2) hcs.2

/-- What is left of a path starts where the path does, and only there does it step up. -/
theorem settled_components (p : Path) :
    Settled p.isAbsolute (p.components.foldl normalStep []) := by
  have hnamed : ∀ c ∈ p.names.map Component.ofName, c ≠ .root := by
    intro c hc
    obtain ⟨name, -, rfl⟩ := List.mem_map.1 hc
    unfold Component.ofName
    split <;> simp
  have hordinary {c : Component} (hc : c ∈ p.components) (n : Name) (hn : c = .normal n) :
      Ordinary n :=
    ordinary_of_mem_components (hn ▸ hc)
  cases habsolute : p.isAbsolute with
  | true =>
    have hcomponents := components_of_isAbsolute habsolute
    rw [hcomponents, List.foldl_cons]
    refine Settled.foldl ⟨0, [], by simp, rfl⟩ ?_
    intro c hc
    exact ⟨hnamed c hc, hordinary (by rw [hcomponents]; exact List.mem_cons_of_mem _ hc)⟩
  | false =>
    have hcomponents := components_of_relative habsolute
    refine Settled.foldl ⟨0, [], by simp, rfl⟩ ?_
    intro c hc
    refine ⟨?_, hordinary hc⟩
    rw [hcomponents, List.mem_append] at hc
    rcases hc with hc | hc
    · split at hc
      · obtain rfl := List.mem_singleton.1 hc
        simp
      · cases hc
    · exact hnamed c hc

theorem reverse_lead (absolute : Bool) (ups : Nat) :
    (lead absolute ups).reverse = lead absolute ups := by
  cases absolute <;> simp [lead]

/-- The components that are left of a path, in their order. -/
def settled (p : Path) : List Component :=
  (p.components.foldl normalStep []).reverse

theorem normalize_eq_settled (p : Path) : p.normalize = ofComponents p.settled := rfl

theorem settled_eq (p : Path) : ∃ (ups : Nat) (names : List Name), (∀ n ∈ names, Ordinary n) ∧
    p.settled = lead p.isAbsolute ups ++ names.map .normal := by
  obtain ⟨ups, names, hnames, hmet⟩ := settled_components p
  refine ⟨ups, names.reverse, fun n hn => hnames n (List.mem_reverse.1 hn), ?_⟩
  rw [settled, hmet, List.reverse_append, reverse_lead, List.map_reverse]

/-- The normal form of a path starts where the path does, and only there does it step up. -/
theorem normalize_eq (p : Path) : ∃ (ups : Nat) (names : List Name), (∀ n ∈ names, Ordinary n) ∧
    p.normalize = ofComponents (lead p.isAbsolute ups ++ names.map .normal) := by
  obtain ⟨ups, names, hnames, hsettled⟩ := p.settled_eq
  exact ⟨ups, names, hnames, by rw [normalize_eq_settled, hsettled]⟩

/-- A path from the root on, with no `.` or `..` between its separators. -/
structure Plain (p : Path) : Prop where
  absolute : p.isAbsolute = true
  undotted : ∀ part ∈ p.segments, part ≠ dotName ∧ part ≠ dotDotName

theorem Plain.components (h : p.Plain) :
    ∃ names : List Name, (∀ n ∈ names, Ordinary n) ∧ p.components = .root :: names.map .normal := by
  have hordinary : ∀ n ∈ p.names, Ordinary n := by
    intro n hn
    obtain ⟨hsegment, hblank⟩ := List.mem_filter.1 hn
    exact ⟨by simpa using hblank, (h.undotted n hsegment).2,
      slash_not_mem_of_mem_segments hsegment⟩
  refine ⟨p.names, hordinary, ?_⟩
  rw [components_of_isAbsolute h.absolute]
  exact congrArg _ (List.map_congr_left fun n hn => (hordinary n hn).ofName)

theorem plain_of_names {names : List Name} (h : ∀ n ∈ names, Ordinary n) :
    (ofComponents (.root :: names.map .normal)).Plain := by
  cases names with
  | nil => exact ⟨rfl, by decide⟩
  | cons first rest =>
    have htext : ofComponents (.root :: (first :: rest).map .normal) =
        ⟨Text.join slash ([] :: first :: rest)⟩ := by
      have hnames : (rest.map Component.normal).map Component.text = rest := by
        rw [List.map_map]
        exact List.map_id rest
      simp [ofComponents, Component.text, hnames]
    rw [htext]
    refine ⟨rfl, ?_⟩
    rw [segments_join (by simp) (List.forall_mem_cons.2
      ⟨by simp, fun n hn => (h n hn).slash_not_mem⟩)]
    intro part hpart
    rcases List.mem_cons.1 hpart with rfl | hpart
    · decide
    · exact ⟨(h part hpart).ne_dot, (h part hpart).ne_dotDot⟩

theorem plain_normalize (h : p.isAbsolute = true) : p.normalize.Plain := by
  obtain ⟨ups, names, hnames, hnormal⟩ := p.normalize_eq
  rw [hnormal, h]
  exact plain_of_names hnames

/-- What is appended to an absolute path is absolute. -/
theorem isAbsolute_append (h : p.isAbsolute = true) (q : Path) :
    (p.append q).isAbsolute = true := by
  obtain ⟨b, rest, hbytes⟩ : ∃ b rest, p.bytes = b :: rest := by
    cases hbytes : p.bytes with
    | nil => simp [isAbsolute, hbytes] at h
    | cons b rest => exact ⟨b, rest, rfl⟩
  unfold append
  split
  · assumption
  · simp only [isAbsolute, hbytes, List.head?_cons] at h
    split <;> simp [isAbsolute, hbytes, h]

end Path

end TreeArchive
