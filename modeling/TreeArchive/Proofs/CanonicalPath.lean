import Mathlib.Data.List.Induction
import TreeArchive.Proofs.NormalForm

/-!
Normal forms are canonical. The steps of a normal form come to the same as those of the path, from
wherever they are taken; so a normal form is its own, and it makes no difference whether paths are
appended or their normal forms.
-/
namespace TreeArchive

namespace Path

variable {p q : Path} {absolute : Bool} {ups : Nat} {names : List Name}
  {met cs : List Component}

theorem foldl_filter_current (cs met : List Component) :
    (cs.filter (· != .current)).foldl normalStep met = cs.foldl normalStep met := by
  induction cs generalizing met with
  | nil => rfl
  | cons c rest ih =>
    cases c with
    | current =>
      rw [List.filter_cons_of_neg (by simp), ih, List.foldl_cons, normalStep]
    | _ => rw [List.filter_cons_of_pos (by simp), List.foldl_cons, ih, List.foldl_cons]

/-- What is left of a path is met as it stands, with nothing to take back. -/
theorem foldl_lead (absolute : Bool) (ups : Nat) (names : List Name) :
    (lead absolute ups ++ names.map Component.normal).foldl normalStep [] =
      (lead absolute ups ++ names.map Component.normal).reverse := by
  have hups (n : Nat) : (List.replicate ups Component.parent).foldl normalStep
      (List.replicate n .parent) = List.replicate (n + ups) .parent := by
    induction ups generalizing n with
    | zero => rfl
    | succ ups ih =>
      have hstep : normalStep (List.replicate n .parent) .parent = List.replicate (n + 1) .parent :=
        by cases n <;> rfl
      rw [List.replicate_succ, List.foldl_cons, hstep, ih, Nat.add_right_comm, Nat.add_assoc]
  have hlead : (lead absolute ups).foldl normalStep [] = lead absolute ups := by
    cases absolute with
    | true => rfl
    | false =>
      have hzero := hups 0
      rw [Nat.zero_add] at hzero
      exact hzero
  rw [List.foldl_append, hlead, foldl_normalStep (by simp), List.filter_eq_self.2 (by simp),
    List.reverse_append, reverse_lead]

theorem mem_foldl_normalStep {c : Component} (h : c ∈ cs.foldl normalStep met) :
    c ∈ met ∨ c ∈ cs ∧ c ≠ .current := by
  induction cs generalizing met with
  | nil => exact .inl h
  | cons first rest ih =>
    rcases ih h with hmet | ⟨hrest, hne⟩
    · have hstep : c ∈ met ∨ c = first ∧ c ≠ .current := by
        unfold normalStep at hmet
        split at hmet
        · exact .inl hmet
        · exact .inl (List.mem_cons_of_mem _ hmet)
        · exact .inl hmet
        · rename_i hcurrent _ _
          rcases List.mem_cons.1 hmet with rfl | hmet
          · exact .inr ⟨rfl, hcurrent⟩
          · exact .inl hmet
      exact hstep.imp_right fun ⟨heq, hne⟩ => ⟨heq ▸ List.mem_cons_self, hne⟩
    · exact .inr ⟨List.mem_cons_of_mem _ hrest, hne⟩

/-- Taking what is left of some steps comes to the same as taking the steps. -/
theorem foldl_settle (hcs : .root ∉ cs) (met : List Component) :
    (cs.foldl normalStep []).reverse.foldl normalStep met = cs.foldl normalStep met := by
  induction cs using List.reverseRecOn with
  | nil => rfl
  | append_singleton cs c ih =>
    rw [List.mem_append, List.mem_singleton, not_or] at hcs
    have hcs' := ih hcs.1
    rw [List.foldl_append, List.foldl_append, List.foldl_cons, List.foldl_nil, List.foldl_cons,
      List.foldl_nil, ← hcs']
    cases c with
    | root => exact absurd rfl hcs.2
    | current => rw [normalStep, normalStep]
    | normal name => simp [normalStep]
    | parent =>
      cases hleft : cs.foldl normalStep [] with
      | nil => simp [normalStep]
      | cons last rest =>
        have hlast : last ∈ cs.foldl normalStep [] := by rw [hleft]; exact List.mem_cons_self
        obtain ⟨hmem, hcurrent⟩ := (mem_foldl_normalStep hlast).resolve_left List.not_mem_nil
        cases last with
        | normal name => simp [normalStep]
        | parent => simp [normalStep]
        | current => exact absurd rfl hcurrent
        | root => exact absurd hmem hcs.1

theorem ofComponents_of_ne (hne : cs ≠ []) (hroot : cs ≠ [.root]) :
    ofComponents cs = ⟨Text.join slash (cs.map Component.text)⟩ := by
  rw [ofComponents]
  · exact hne
  · exact hroot

theorem map_text_normal (names : List Name) : (names.map .normal).map Component.text = names := by
  rw [List.map_map]
  exact List.map_id names

/-- The text of a normal form, between its separators. -/
theorem segments_ofComponents (hnames : ∀ n ∈ names, Ordinary n) :
    (ofComponents (lead absolute ups ++ names.map .normal)).segments =
      if absolute then [] :: (if names = [] then [[]] else names)
      else if ups = 0 ∧ names = [] then [dotName] else List.replicate ups dotDotName ++ names := by
  have hslash : ∀ n ∈ names, slash ∉ n := fun n hn => (hnames n hn).slash_not_mem
  cases absolute with
  | true =>
    by_cases hnil : names = []
    · subst hnil
      rfl
    · have hlead : lead true ups ++ names.map .normal = .root :: names.map .normal := rfl
      have hroot : Component.root :: names.map .normal ≠ [.root] := by simpa using hnil
      rw [hlead, ofComponents_of_ne (by simp) hroot, List.map_cons, map_text_normal, if_pos rfl,
        if_neg hnil]
      refine segments_join (by simp) ?_
      simpa [Component.text] using hslash
  | false =>
    by_cases hnil : ups = 0 ∧ names = []
    · obtain ⟨rfl, rfl⟩ := hnil
      rfl
    · have hparent : List.replicate ups Component.parent ++ names.map .normal ≠ [] := by
        simpa using hnil
      have hroot : List.replicate ups Component.parent ++ names.map .normal ≠ [.root] := by
        intro heq
        have hmem : Component.root ∈ List.replicate ups Component.parent ++ names.map .normal := by
          rw [heq]
          exact List.mem_singleton_self _
        simp at hmem
      rw [lead, if_neg Bool.false_ne_true, ofComponents_of_ne hparent hroot, List.map_append,
        map_text_normal, List.map_replicate, if_neg Bool.false_ne_true, if_neg hnil]
      refine segments_join (by simpa [Component.text] using hnil) ?_
      intro part hpart
      rcases List.mem_append.1 hpart with hpart | hpart
      · rw [List.eq_of_mem_replicate hpart]
        decide
      · exact hslash part hpart

/-- A path is absolute if it has a separator and nothing stands before the first. -/
theorem isAbsolute_iff_segments :
    p.isAbsolute = true ↔ ∃ part rest, p.segments = [] :: part :: rest := by
  obtain ⟨bytes⟩ := p
  cases bytes with
  | nil => simp [isAbsolute, segments, Text.pieces]
  | cons b bytes =>
    obtain ⟨part, rest, hrest⟩ :=
      List.exists_cons_of_ne_nil (Text.pieces_ne_nil (· == slash) bytes)
    by_cases hb : b = slash
    · simp [isAbsolute, segments, Text.pieces, hb, hrest]
    · simp [isAbsolute, segments, Text.pieces, hb, hrest]

section Canonical

variable (hnames : ∀ n ∈ names, Ordinary n)
include hnames

theorem isAbsolute_ofComponents :
    (ofComponents (lead absolute ups ++ names.map .normal)).isAbsolute = absolute := by
  rw [Bool.eq_iff_iff, isAbsolute_iff_segments, segments_ofComponents hnames]
  cases absolute with
  | true =>
    cases names with
    | nil => simp
    | cons first rest => simp
  | false =>
    have hdotDot : dotDotName ≠ [] := by decide
    cases ups with
    | zero =>
      cases names with
      | nil => simp [dotName]
      | cons first rest => simp [(hnames first List.mem_cons_self).ne_nil]
    | succ ups => simp [List.replicate_succ, hdotDot]

/-- A text of a normal form has its components again, and no others but a `.` that stands alone. -/
theorem filter_components_ofComponents :
    (ofComponents (lead absolute ups ++ names.map .normal)).components.filter (· != .current) =
      lead absolute ups ++ names.map .normal := by
  have hfilter : names.filter (!isBlank ·) = names := by
    rw [List.filter_eq_self]
    intro n hn
    simp [(hnames n hn).nonblank]
  have hnormal : names.map Component.ofName = names.map .normal :=
    List.map_congr_left fun n hn => (hnames n hn).ofName
  have hdotDot : isBlank dotDotName = false := by decide
  rw [filter_components, isAbsolute_ofComponents hnames, Path.names, segments_ofComponents hnames]
  cases absolute with
  | true =>
    by_cases hnil : names = []
    · subst hnil
      rfl
    · rw [if_pos rfl, if_pos rfl, if_neg hnil, List.filter_cons_of_neg (by simp [isBlank]), hfilter,
        hnormal]
      rfl
  | false =>
    by_cases hnil : ups = 0 ∧ names = []
    · obtain ⟨rfl, rfl⟩ := hnil
      rfl
    · rw [if_neg Bool.false_ne_true, if_neg Bool.false_ne_true, if_neg hnil, List.filter_append,
        hfilter, List.filter_replicate, if_pos (by simp [hdotDot]), List.map_append, hnormal,
        List.map_replicate]
      rfl

end Canonical

theorem isAbsolute_normalize (p : Path) : p.normalize.isAbsolute = p.isAbsolute := by
  obtain ⟨ups, names, hnames, hnormal⟩ := p.normalize_eq
  rw [hnormal, isAbsolute_ofComponents hnames]

theorem filter_components_normalize (p : Path) :
    p.normalize.components.filter (· != .current) = p.settled := by
  obtain ⟨ups, names, hnames, hsettled⟩ := p.settled_eq
  rw [normalize_eq_settled, hsettled, filter_components_ofComponents hnames]

theorem foldl_components_normalize (p : Path) :
    p.normalize.components.foldl normalStep [] = p.components.foldl normalStep [] := by
  obtain ⟨ups, names, -, hsettled⟩ := p.settled_eq
  rw [← foldl_filter_current, filter_components_normalize, hsettled, foldl_lead, ← hsettled,
    settled, List.reverse_reverse]

theorem normalize_normalize (p : Path) : p.normalize.normalize = p.normalize := by
  rw [normalize, foldl_components_normalize, normalize]

section Append

variable (hq : q.isAbsolute = false)
include hq

theorem names_append (p : Path) : (p.append q).names = p.names ++ q.names := by
  obtain ⟨s⟩ := p
  have hsplit (s t : List UInt8) : names ⟨s ++ slash :: t⟩ = names ⟨s⟩ ++ names ⟨t⟩ := by
    rw [names, segments_append, List.filter_append]
    rfl
  rw [append, if_neg (by simp [hq])]
  split
  · rename_i hend
    rcases List.eq_nil_or_concat' s with rfl | ⟨front, last, rfl⟩
    · rfl
    · -- the separator is there
      obtain rfl : last = slash := by simpa using hend
      have hfront : names ⟨front ++ [slash]⟩ = names ⟨front⟩ := by
        rw [hsplit]
        exact List.append_nil _
      rw [hfront, List.append_assoc, List.singleton_append, hsplit]
  · exact hsplit _ _

theorem isAbsolute_append_relative (p : Path) : (p.append q).isAbsolute = p.isAbsolute := by
  cases hp : p.isAbsolute with
  | true => exact isAbsolute_append hp q
  | false =>
    rw [append, if_neg (by simp [hq])]
    cases hbytes : p.bytes with
    | nil => simpa [isAbsolute] using hq
    | cons b rest =>
      rw [isAbsolute, hbytes] at hp
      split <;> exact hp

/-- The steps of a path and of one behind it are taken one after the other. -/
theorem foldl_components_append (p : Path) : (p.append q).components.foldl normalStep [] =
    q.components.foldl normalStep (p.components.foldl normalStep []) := by
  have happend : (p.append q).components.filter (· != .current) =
      p.components.filter (· != .current) ++ q.components.filter (· != .current) := by
    rw [filter_components, filter_components, filter_components, names_append hq,
      isAbsolute_append_relative hq, hq, List.map_append, if_neg Bool.false_ne_true,
      List.nil_append, List.append_assoc]
  rw [← foldl_filter_current, happend, List.foldl_append, foldl_filter_current,
    foldl_filter_current]

end Append

theorem root_not_mem_of_relative (h : p.isAbsolute = false) : .root ∉ p.components := by
  rw [components_of_relative h, List.mem_append, not_or]
  constructor
  · split <;> simp
  · intro hmem
    obtain ⟨name, -, hname⟩ := List.mem_map.1 hmem
    unfold Component.ofName at hname
    split at hname <;> cases hname

/-- Behind each other, paths come to the normal form to which their normal forms come. -/
theorem normalize_append (p q : Path) :
    (p.append q).normalize = (p.normalize.append q.normalize).normalize := by
  cases hq : q.isAbsolute with
  | true =>
    have hq' : q.normalize.isAbsolute = true := (isAbsolute_normalize q).trans hq
    rw [append, if_pos hq, append, if_pos hq', normalize_normalize]
  | false =>
    have hq' : q.normalize.isAbsolute = false := (isAbsolute_normalize q).trans hq
    have hsteps (met : List Component) : q.normalize.components.foldl normalStep met =
        q.components.foldl normalStep met := by
      rw [← foldl_filter_current, filter_components_normalize, settled,
        foldl_settle (root_not_mem_of_relative hq)]
    rw [normalize, foldl_components_append hq, normalize, foldl_components_append hq',
      foldl_components_normalize, hsteps]

theorem eq_dot_of_dot_mem_normalize (h : dotName ∈ p.normalize.segments) :
    p.normalize = ⟨dotName⟩ := by
  obtain ⟨ups, names, hnames, hnormal⟩ := p.normalize_eq
  have hnone : dotName ∉ names := fun hmem => (hnames _ hmem).ne_dot rfl
  have hdot : dotName ≠ [] ∧ dotName ≠ dotDotName := by decide
  rw [hnormal, segments_ofComponents hnames] at h
  cases habsolute : p.isAbsolute with
  | true =>
    rw [habsolute, if_pos rfl, List.mem_cons, or_iff_right hdot.1] at h
    split at h
    · exact absurd (List.mem_singleton.1 h) hdot.1
    · exact absurd h hnone
  | false =>
    rw [habsolute, if_neg Bool.false_ne_true] at h
    split at h
    · rename_i hnil
      rw [hnormal, habsolute, hnil.1, hnil.2]
      rfl
    · rcases List.mem_append.1 h with hmem | hmem
      · exact absurd (List.eq_of_mem_replicate hmem) hdot.2
      · exact absurd hmem hnone

theorem dotDot_leads_normalize {front back : List Name}
    (h : p.normalize.segments = front ++ dotDotName :: back) :
    p.isAbsolute = false ∧ ∀ part ∈ front, part = dotDotName := by
  obtain ⟨ups, names, hnames, hnormal⟩ := p.normalize_eq
  have hnone : dotDotName ∉ names := fun hmem => (hnames _ hmem).ne_dotDot rfl
  have hdotDot : dotDotName ≠ [] ∧ dotDotName ≠ dotName := by decide
  have hmem : dotDotName ∈ p.normalize.segments := by
    rw [h]
    exact List.mem_append_right _ List.mem_cons_self
  rw [hnormal, segments_ofComponents hnames] at h hmem
  cases habsolute : p.isAbsolute with
  | true =>
    rw [habsolute, if_pos rfl, List.mem_cons, or_iff_right hdotDot.1] at hmem
    split at hmem
    · exact absurd (List.mem_singleton.1 hmem) hdotDot.1
    · exact absurd hmem hnone
  | false =>
    refine ⟨rfl, ?_⟩
    rw [habsolute, if_neg Bool.false_ne_true] at h hmem
    split at hmem
    · exact absurd (List.mem_singleton.1 hmem) hdotDot.2
    · rename_i hnil
      rw [if_neg hnil] at h
      rcases List.append_eq_append_iff.1 h with ⟨between, rfl, hbetween⟩ | ⟨between, hups, -⟩
      · -- no `..` comes behind the names
        exact absurd (hbetween ▸ List.mem_append_right _ List.mem_cons_self) hnone
      · intro part hpart
        exact List.eq_of_mem_replicate (hups ▸ List.mem_append_left _ hpart)

/-- The normal form of a path is absolute exactly if the path is. Between its separators stands no
`.`, unless it is nothing but one, and a `..` only at the start of a relative path, behind nothing
but others. It is its own normal form, and that of two paths one behind the other is told from
theirs. -/
theorem normalize_is_canonical :
    (∀ p : Path, p.normalize.isAbsolute = p.isAbsolute ∧
      (dotName ∈ p.normalize.segments → p.normalize = ⟨dotName⟩) ∧
      (∀ front back, p.normalize.segments = front ++ dotDotName :: back →
        p.isAbsolute = false ∧ ∀ part ∈ front, part = dotDotName) ∧
      p.normalize.normalize = p.normalize) ∧
    ∀ p q : Path, (p.append q).normalize = (p.normalize.append q.normalize).normalize := by
  refine ⟨?_, normalize_append⟩
  intro p
  exact ⟨isAbsolute_normalize p, eq_dot_of_dot_mem_normalize, fun _ _ => dotDot_leads_normalize,
    normalize_normalize p⟩

example : (ofString "a/./../../b//c/..").normalize = ofString "../b" := by decide +kernel

end Path

end TreeArchive
