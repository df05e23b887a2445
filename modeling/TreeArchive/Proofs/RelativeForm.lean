import TreeArchive.Proofs.Components
import TreeArchive.Proofs.Utf8
import TreeArchive.RelativePath

/-! What stands below a base in a path, and when it is a relative path. -/
namespace TreeArchive

namespace Path

theorem filter_dropWhile_isBlank (xs : List Name) :
    (xs.dropWhile isBlank).filter (!isBlank ·) = xs.filter (!isBlank ·) := by
  induction xs with
  | nil => rfl
  | cons x rest ih =>
    by_cases hx : isBlank x = true
    · rw [List.dropWhile_cons_of_pos hx, ih]
      simp [hx]
    · rw [List.dropWhile_cons_of_neg hx]

theorem filter_trimEnd (xs : List Name) :
    (trimEnd xs).filter (!isBlank ·) = xs.filter (!isBlank ·) := by
  rw [trimEnd, List.filter_reverse, filter_dropWhile_isBlank, List.filter_reverse,
    List.reverse_reverse]

theorem filter_dropNamed (n : Nat) (xs : List Name) :
    (dropNamed n xs).filter (!isBlank ·) = (xs.filter (!isBlank ·)).drop n := by
  fun_induction dropNamed n xs with
  | case1 => rfl
  | case2 => rfl
  | case3 n x rest hx ih => simp [ih, hx]
  | case4 n x rest hx ih => simp [ih, hx]

theorem mem_of_mem_trimEnd {x : Name} {xs : List Name} (h : x ∈ trimEnd xs) : x ∈ xs := by
  rw [trimEnd, List.mem_reverse] at h
  exact List.mem_reverse.1 ((List.dropWhile_sublist _).mem h)

theorem mem_of_mem_dropNamed {n : Nat} {x : Name} {xs : List Name} (h : x ∈ dropNamed n xs) :
    x ∈ xs := by
  fun_induction dropNamed n xs with
  | case1 => exact h
  | case2 => exact h
  | case3 n y rest hy ih => exact List.mem_cons_of_mem _ (ih h)
  | case4 n y rest hy ih => exact List.mem_cons_of_mem _ (ih h)

theorem trimEnd_cons {x : Name} (h : isBlank x = false) (xs : List Name) :
    trimEnd (x :: xs) = x :: trimEnd xs := by
  rw [trimEnd, trimEnd, List.reverse_cons, List.dropWhile_append]
  split
  · rename_i hempty
    rw [List.isEmpty_iff] at hempty
    simp [hempty, h]
  · simp

theorem segments_join {parts : List Name} (hne : parts ≠ []) (h : ∀ part ∈ parts, slash ∉ part) :
    segments ⟨Text.join slash parts⟩ = parts := by
  apply Text.pieces_join
  · exact beq_self_eq_true slash
  · exact hne
  · exact fun part hpart => Text.not_mem_iff_forall.1 (h part hpart)

/-- A text of parts that starts with a name has these parts as its components. -/
theorem components_join {parts : List Name} (h : ∀ part ∈ parts, slash ∉ part)
    (hhead : ∀ part, parts.head? = some part → isBlank part = false) :
    components ⟨Text.join slash parts⟩ = (parts.filter (!isBlank ·)).map Component.ofName := by
  cases parts with
  | nil => rfl
  | cons first rest =>
    have hfirst := hhead first rfl
    have hrelative : isAbsolute ⟨Text.join slash (first :: rest)⟩ = false := by
      cases hbytes : first with
      | nil => simp [hbytes, isBlank] at hfirst
      | cons b name =>
        have hne : b ≠ slash := by
          rintro rfl
          exact h first List.mem_cons_self (by rw [hbytes]; exact List.mem_cons_self)
        cases rest <;> simp [Text.join, isAbsolute, hne]
    have hdot : first ≠ dotName := by
      rintro rfl
      simp [isBlank] at hfirst
    rw [components_of_relative hrelative, names, segments_join (by simp) h]
    simp [hdot]

theorem slash_not_mem_of_mem_segments {p : Path} {part : Name} (h : part ∈ p.segments) :
    slash ∉ part :=
  Text.not_mem_iff_forall.2 (Text.isSep_of_mem_pieces h)

theorem isBlank_of_head?_dropWhile {xs : List Name} {x : Name}
    (h : (xs.dropWhile isBlank).head? = some x) : isBlank x = false := by
  have := List.head?_dropWhile_not isBlank xs
  rw [h] at this
  simpa using this

theorem head?_trimEnd {xs : List Name} {x : Name} (hx : (trimEnd xs).head? = some x) :
    xs.head? = some x := by
  obtain ⟨suffix, hsuffix⟩ := List.dropWhile_suffix (l := xs.reverse) isBlank
  have hinit : xs = trimEnd xs ++ suffix.reverse := by
    rw [trimEnd, ← List.reverse_append, hsuffix, List.reverse_reverse]
  rw [hinit]
  cases htrim : trimEnd xs with
  | nil => simp [htrim] at hx
  | cons y rest => simpa [htrim] using hx

theorem segments_of_isAbsolute {p : Path} (h : p.isAbsolute = true) :
    p.segments = [] :: p.segments.tail := by
  obtain ⟨bytes⟩ := p
  cases bytes with
  | nil => simp [isAbsolute] at h
  | cons b rest =>
    obtain rfl : b = slash := by simpa [isAbsolute] using h
    simp [segments, Text.pieces]

theorem segments_of_head?_dot {p : Path} (h : p.segments.head? = some dotName) :
    p.segments = dotName :: p.segments.tail := by
  cases hsegments : p.segments with
  | nil => simp [hsegments] at h
  | cons first rest =>
    rw [hsegments] at h
    obtain rfl := Option.some.inj h
    rfl

/-- The components of a path, with the segments that name them. -/
theorem components_eq (p : Path) :
    (p.isAbsolute = true ∧ p.segments = [] :: p.segments.tail ∧
      p.components = .root :: (p.segments.tail.filter (!isBlank ·)).map Component.ofName) ∨
    (p.isAbsolute = false ∧ p.segments = dotName :: p.segments.tail ∧
      p.components = .current :: (p.segments.tail.filter (!isBlank ·)).map Component.ofName) ∨
    (p.isAbsolute = false ∧ p.segments.head? ≠ some dotName ∧
      p.components = (p.segments.filter (!isBlank ·)).map Component.ofName) := by
  cases habsolute : p.isAbsolute with
  | true =>
    have hsegments := segments_of_isAbsolute habsolute
    refine .inl ⟨rfl, hsegments, ?_⟩
    rw [components_of_isAbsolute habsolute, names, hsegments]
    simp [isBlank]
  | false =>
    by_cases hdot : p.segments.head? = some dotName
    · have hsegments := segments_of_head?_dot hdot
      refine .inr (.inl ⟨rfl, hsegments, ?_⟩)
      rw [components_of_relative habsolute, names, if_pos hdot, hsegments]
      simp [isBlank]
    · refine .inr (.inr ⟨rfl, hdot, ?_⟩)
      rw [components_of_relative habsolute, names, if_neg hdot]
      rfl

theorem ordinary_of_mem_components {p : Path} {name : Name}
    (h : Component.normal name ∈ p.components) : Ordinary name := by
  have hnamed (parts : List Name) (hparts : ∀ part ∈ parts, part ∈ p.segments)
      (hmem : Component.normal name ∈ (parts.filter (!isBlank ·)).map Component.ofName) :
      Ordinary name := by
    obtain ⟨part, hpart, heq⟩ := List.mem_map.1 hmem
    obtain ⟨hsegment, hblank⟩ := List.mem_filter.1 hpart
    by_cases hdotDot : part = dotDotName
    · simp [Component.ofName, hdotDot] at heq
    · obtain rfl : part = name := by simpa [Component.ofName, hdotDot] using heq
      exact ⟨by simpa using hblank, hdotDot, slash_not_mem_of_mem_segments (hparts _ hsegment)⟩
  rcases components_eq p with ⟨-, -, hcomponents⟩ | ⟨-, -, hcomponents⟩ | ⟨-, -, hcomponents⟩
  · rw [hcomponents] at h
    exact hnamed _ (fun _ => List.mem_of_mem_tail) (by simpa using h)
  · rw [hcomponents] at h
    exact hnamed _ (fun _ => List.mem_of_mem_tail) (by simpa using h)
  · rw [hcomponents] at h
    exact hnamed _ (fun _ hpart => hpart) h

/-- Blank segments at either end of a text of segments are no components. -/
theorem components_trimmed {p : Path} {parts : List Name} (h : ∀ part ∈ parts, part ∈ p.segments) :
    components ⟨Text.join slash (trimEnd (parts.dropWhile isBlank))⟩ =
      (parts.filter (!isBlank ·)).map Component.ofName := by
  rw [components_join, filter_trimEnd, filter_dropWhile_isBlank]
  · intro part hpart
    exact slash_not_mem_of_mem_segments
      (h part ((List.dropWhile_sublist _).mem (mem_of_mem_trimEnd hpart)))
  · intro part hpart
    exact isBlank_of_head?_dropWhile (head?_trimEnd hpart)

theorem names_join {parts : List Name} (h : ∀ part ∈ parts, slash ∉ part) :
    names ⟨Text.join slash parts⟩ = parts.filter (!isBlank ·) := by
  cases parts with
  | nil => rfl
  | cons first rest => rw [names, segments_join (by simp) h]

theorem segments_of_head?_nil {p : Path} (h : p.isAbsolute = false)
    (hhead : p.segments.head? = some []) : p.segments = [[]] := by
  obtain ⟨bytes⟩ := p
  cases bytes with
  | nil => rfl
  | cons b rest =>
    have hne : (b == slash) = false := by simpa [isAbsolute] using h
    have hrest := Text.pieces_ne_nil (· == slash) rest
    cases hpieces : Text.pieces (· == slash) rest with
    | nil => exact absurd hpieces hrest
    | cons piece others => simp [segments, Text.pieces, hne, hpieces] at hhead

theorem components_afterComponents_zero (p : Path) :
    (p.afterComponents 0).components = p.components := by
  have hslash (part : Name) (h : part ∈ trimEnd p.segments.tail) : slash ∉ part :=
    slash_not_mem_of_mem_segments (List.mem_of_mem_tail (mem_of_mem_trimEnd h))
  -- the text starts with a separator, with a dot or with a name
  rcases p.components_eq with ⟨habsolute, -, h⟩ | ⟨habsolute, hdot, h⟩ | ⟨habsolute, hdot, h⟩
  · have : p.afterComponents 0 = ⟨slash :: Text.join slash (trimEnd p.segments.tail)⟩ := by
      simp [afterComponents, habsolute]
    rw [this, components_slash_cons, names_join hslash, filter_trimEnd, h]
  · have : p.afterComponents 0 = ⟨Text.join slash (dotName :: trimEnd p.segments.tail)⟩ := by
      rw [afterComponents, if_pos rfl, if_neg (by simp [habsolute]), hdot]
      rfl
    have hsegments : segments ⟨Text.join slash (dotName :: trimEnd p.segments.tail)⟩ =
        dotName :: trimEnd p.segments.tail := by
      apply segments_join (by simp)
      intro part hpart
      rcases List.mem_cons.1 hpart with rfl | hpart
      · decide
      · exact hslash part hpart
    have hrelative : isAbsolute ⟨Text.join slash (dotName :: trimEnd p.segments.tail)⟩ = false := by
      cases trimEnd p.segments.tail <;> rfl
    have hblank : isBlank dotName = true := rfl
    rw [this, components_of_relative hrelative, names, hsegments, h]
    simp [hblank, filter_trimEnd]
  · cases hsegments : p.segments with
    | nil => exact absurd hsegments (Text.pieces_ne_nil _ _)
    | cons first rest =>
      have hfirst : first ≠ dotName := by
        rintro rfl
        simp [hsegments] at hdot
      have : p.afterComponents 0 = ⟨Text.join slash (trimEnd p.segments)⟩ := by
        rw [afterComponents, if_pos rfl, if_neg (by simp [habsolute]), hsegments]
        simp [hfirst]
      rw [this, h]
      by_cases hblank : isBlank first = true
      · have hnil : first = [] := by simpa [isBlank, hfirst] using hblank
        rw [segments_of_head?_nil habsolute (by rw [hsegments, hnil]; rfl)]
        rfl
      · rw [hsegments, trimEnd_cons (by simpa using hblank), components_join]
        · simp [hblank, filter_trimEnd]
        · intro part hpart
          rcases List.mem_cons.1 hpart with rfl | hpart
          · exact slash_not_mem_of_mem_segments (by rw [hsegments]; exact List.mem_cons_self)
          · exact hslash part (by rwa [hsegments])
        · intro part hpart
          cases hpart
          simpa using hblank

/-- The text behind some components has the components behind them. -/
theorem components_afterComponents (p : Path) (n : Nat) :
    (p.afterComponents n).components = p.components.drop n := by
  cases n with
  | zero => exact components_afterComponents_zero p
  | succ n =>
    have hstarted (started : Component)
        (h : p.components = started :: (p.segments.tail.filter (!isBlank ·)).map Component.ofName) :
        components ⟨Text.join slash (trimEnd ((dropNamed n p.segments.tail).dropWhile isBlank))⟩ =
          p.components.drop (n + 1) := by
      rw [components_trimmed fun part hpart => List.mem_of_mem_tail (mem_of_mem_dropNamed hpart),
        filter_dropNamed, h, List.drop_succ_cons, List.map_drop]
    rcases p.components_eq with ⟨habsolute, -, h⟩ | ⟨habsolute, hdot, h⟩ | ⟨habsolute, hdot, h⟩
    · have := hstarted _ h
      simpa [afterComponents, habsolute] using this
    · have := hstarted _ h
      have hhead : p.segments.head? = some dotName := by
        rw [hdot]
        rfl
      simpa [afterComponents, habsolute, hhead] using this
    · -- no segment is used up by the start, so all the components are dropped by name
      have : components
          ⟨Text.join slash (trimEnd ((dropNamed (n + 1) p.segments).dropWhile isBlank))⟩ =
            p.components.drop (n + 1) := by
        rw [components_trimmed fun part hpart => mem_of_mem_dropNamed hpart, filter_dropNamed, h,
          List.map_drop]
      simpa [afterComponents, habsolute, hdot] using this

/-- Taking a base away leaves the components behind it. -/
theorem exists_of_strip? {p base : Path} {rest : List Component}
    (h : p.components = base.components ++ rest) :
    ∃ q, p.strip? base = some q ∧ q.components = rest := by
  have hinit : base.components.isPrefixOf p.components = true := by
    rw [List.isPrefixOf_iff_prefix, h]
    exact List.prefix_append _ _
  refine ⟨p.afterComponents base.components.length, by simp [strip?, hinit], ?_⟩
  rw [components_afterComponents, h, List.drop_left]

/-- The name of a component that is one. -/
def Component.name? : Component → Option Name
  | .normal name => some name
  | _ => none

theorem Component.name?_eq_some {c : Component} {name : Name} :
    c.name? = some name ↔ c = .normal name := by
  cases c <;> simp [name?]

end Path

open Text

/-- Read from the left, `..` or a root comes before any name that is no text. -/
def climbs : List Path.Component → Bool
  | [] => false
  | .root :: _ => true
  | .parent :: _ => true
  | .current :: rest => climbs rest
  | .normal name :: rest => (Utf8.decode? name).isSome && climbs rest

theorem climbs_append_normal (cs : List Path.Component) (names : List Name) :
    climbs (cs ++ names.map .normal) = climbs cs := by
  induction cs with
  | nil =>
    induction names with
    | nil => rfl
    | cons name rest ih =>
      rw [List.nil_append] at ih
      simp [climbs, ih]
  | cons c rest ih => cases c <;> simp [climbs, ih]

theorem isOrdinary_of_encode {c : List Char} (h : Path.Ordinary (Utf8.encode c)) :
    isOrdinary c = true := by
  have hslash : '/' ∉ c := fun hmem =>
    h.slash_not_mem (List.mem_flatMap.2 ⟨'/', hmem, by decide⟩)
  have hempty : c ≠ [] := fun heq => h.ne_nil (by rw [heq]; rfl)
  have hdot : c ≠ ['.'] := fun heq => h.ne_dot (by rw [heq]; decide)
  have hdotDot : c ≠ ['.', '.'] := fun heq => h.ne_dotDot (by rw [heq]; decide)
  simp [isOrdinary, hslash, hempty, hdot, hdotDot]

namespace RelativePath

/-- The relative path of one name. -/
def ofName (name : String) (h : isOrdinary name.toList = true) : RelativePath :=
  ⟨[name.toList], List.cons_ne_nil _ _, List.forall_mem_singleton.2 h⟩

theorem ext_components {r s : RelativePath} (h : r.components = s.components) : r = s := by
  cases r
  cases s
  cases h
  rfl

/-- A relative path is known by the bytes of its components. -/
theorem ext_encode {r s : RelativePath}
    (h : r.components.map Utf8.encode = s.components.map Utf8.encode) : r = s :=
  ext_components (List.map_injective_iff.2 Utf8.encode_injective h)

theorem pieces_chars (r : RelativePath) : pieces (· == '/') r.chars = r.components := by
  apply pieces_join (by rfl) r.components_ne_nil
  intro c hc
  apply not_mem_iff_forall.1
  have hordinary := r.ordinary c hc
  simp only [isOrdinary, Bool.and_eq_true, Bool.not_eq_true', List.contains_eq_mem,
    decide_eq_false_iff_not] at hordinary
  exact hordinary.2

/-- A relative path is known by its text. -/
theorem eq_of_text_eq {r r' : RelativePath} (h : r.text = r'.text) : r = r' := by
  apply ext_components
  rw [← r.pieces_chars, ← r'.pieces_chars, String.ofList_injective h]

theorem ofComponents?_eq_some {components : List (List Char)} {r : RelativePath} :
    ofComponents? components = some r ↔ r.components = components := by
  unfold ofComponents?
  constructor
  · intro h
    split at h
    · cases h
      rfl
    · cases h
  · rintro rfl
    rw [dif_pos ⟨r.components_ne_nil, r.ordinary⟩]

variable {cs : List Path.Component}

theorem readComponents_of_climbs (whole relative : Path) (h : climbs cs = true) : ∃ fault,
    readComponents whole relative cs = .error (.invalidRelativePath relative.display fault) := by
  fun_induction climbs cs with
  | case1 => cases h
  | case2 => exact ⟨_, rfl⟩
  | case3 => exact ⟨_, rfl⟩
  | case4 rest ih => exact ih h
  | case5 name rest ih =>
    rw [Bool.and_eq_true, Option.isSome_iff_exists] at h
    obtain ⟨⟨component, hdecode⟩, hrest⟩ := h
    obtain ⟨fault, hread⟩ := ih hrest
    exact ⟨fault, by simp [readComponents, hdecode, hread]⟩

/-- What does not climb is read as its names, if these are text. -/
theorem readComponents_of_not_climbs (whole relative : Path) (h : climbs cs = false) :
    (∃ components, components.map Utf8.encode = cs.filterMap Path.Component.name? ∧
      readComponents whole relative cs = .ok components) ∨
    ((∀ components : List (List Char),
        components.map Utf8.encode ≠ cs.filterMap Path.Component.name?) ∧
      readComponents whole relative cs = .error (.nonUtf8Path whole)) := by
  fun_induction climbs cs with
  | case1 => exact .inl ⟨[], rfl, rfl⟩
  | case2 => cases h
  | case3 => cases h
  | case4 rest ih => exact ih h
  | case5 name rest ih =>
    have hcons : (Path.Component.normal name :: rest).filterMap Path.Component.name? =
        name :: rest.filterMap Path.Component.name? := rfl
    rw [readComponents, hcons]
    cases hdecode : Utf8.decode? name with
    | none =>
      -- the first name that is no text is the fault, whatever comes behind it
      refine .inr ⟨?_, rfl⟩
      rintro (_ | ⟨c, components⟩) heq
      · cases heq
      · rw [Utf8.decode?_eq_some.2 (List.cons.inj heq).1] at hdecode
        cases hdecode
    | some c =>
      rw [hdecode, Option.isSome_some, Bool.true_and] at h
      rcases ih h with ⟨components, hnames, hread⟩ | ⟨hnone, hread⟩
      · refine .inl ⟨c :: components, ?_, by rw [hread]; rfl⟩
        rw [List.map_cons, Utf8.decode?_eq_some.1 hdecode, hnames]
      · refine .inr ⟨?_, by rw [hread]; rfl⟩
        rintro (_ | ⟨d, components⟩) heq
        · cases heq
        · exact hnone components (List.cons.inj heq).2

theorem readComponents_error {whole relative : Path} {f : Failure}
    (h : readComponents whole relative cs = .error f) :
    f = .nonUtf8Path whole ∨ ∃ fault, f = .invalidRelativePath relative.display fault := by
  fun_induction readComponents whole relative cs with
  | case1 => cases h
  | case2 name rest component hdecode ih =>
    cases hrest : readComponents whole relative rest with
    | ok components => simp [hrest] at h
    | error g =>
      rw [hrest] at h
      cases h
      exact ih hrest
  | case3 => exact .inl (Except.error.inj h).symm
  | case4 rest ih => exact ih h
  | case5 => exact .inr ⟨_, (Except.error.inj h).symm⟩
  | case6 => exact .inr ⟨_, (Except.error.inj h).symm⟩

variable {p root : Path} {names : List Name}

/-- What is wrong with a path that has no relative form. -/
theorem fromRoot_error {f : Failure} (h : fromRoot p root = .error f) :
    f = .outsideRoot p root ∨ f = .nonUtf8Path p ∨ ∃ text fault, f = .invalidRelativePath text fault
      := by
  unfold fromRoot at h
  cases hstrip : p.strip? root with
  | none =>
    rw [hstrip] at h
    exact .inl (Except.error.inj h).symm
  | some relative =>
    right
    cases hread : readComponents p relative relative.components with
    | error g =>
      simp only [hstrip, hread, bind, Except.bind, Except.error.injEq] at h
      subst h
      exact (readComponents_error hread).imp_right fun ⟨fault, hfault⟩ => ⟨_, fault, hfault⟩
    | ok components =>
      simp only [hstrip, hread, bind, Except.bind] at h
      split at h
      · cases h
      · exact .inr ⟨_, _, (Except.error.inj h).symm⟩

/-- A path with a name below the root has a relative form, unless it climbs or a name is no text. -/
theorem fromRoot_below (h : p.components = root.components ++ cs)
    (hne : cs.filterMap Path.Component.name? ≠ []) :
    (climbs cs = true ∧ ∃ text fault,
      fromRoot p root = .error (.invalidRelativePath text fault)) ∨
    (climbs cs = false ∧
      ((∃ r : RelativePath, r.components.map Utf8.encode = cs.filterMap Path.Component.name? ∧
        fromRoot p root = .ok r) ∨
      ((∀ components : List (List Char),
          components.map Utf8.encode ≠ cs.filterMap Path.Component.name?) ∧
        fromRoot p root = .error (.nonUtf8Path p)))) := by
  obtain ⟨q, hstrip, rfl⟩ := Path.exists_of_strip? h
  rw [fromRoot, hstrip]
  simp only
  cases hclimbs : climbs q.components with
  | true =>
    obtain ⟨fault, hread⟩ := readComponents_of_climbs p q hclimbs
    exact .inl ⟨rfl, _, fault, by rw [hread]; rfl⟩
  | false =>
    refine .inr ⟨rfl, ?_⟩
    rcases readComponents_of_not_climbs p q hclimbs with
      ⟨components, hnames, hread⟩ | ⟨hnone, hread⟩
    · have hordinary : components ≠ [] ∧ ∀ c ∈ components, isOrdinary c = true := by
        constructor
        · rintro rfl
          exact hne hnames.symm
        · intro c hc
          have hname : Utf8.encode c ∈ q.components.filterMap Path.Component.name? := by
            rw [← hnames]
            exact List.mem_map_of_mem hc
          obtain ⟨component, hmem, heq⟩ := List.mem_filterMap.1 hname
          rw [Path.Component.name?_eq_some] at heq
          subst heq
          exact isOrdinary_of_encode (Path.ordinary_of_mem_components hmem)
      have hform : ofComponents? components = some ⟨components, hordinary.1, hordinary.2⟩ :=
        ofComponents?_eq_some.2 rfl
      refine .inl ⟨⟨components, hordinary.1, hordinary.2⟩, hnames, ?_⟩
      simp only [hread, bind, Except.bind, hform]
    · exact .inr ⟨hnone, by rw [hread]; rfl⟩

/-- Below the root by nothing but names, the relative path has these names. -/
theorem fromRoot_eq_ok (h : p.components = root.components ++ names.map .normal) (hne : names ≠ [])
    {r : RelativePath} : fromRoot p root = .ok r ↔ r.components.map Utf8.encode = names := by
  have hnames : (names.map Path.Component.normal).filterMap Path.Component.name? = names := by
    rw [List.filterMap_map]
    exact List.filterMap_some
  have hclimbs : climbs (names.map .normal) = false := climbs_append_normal [] names
  rcases fromRoot_below h (by rwa [hnames]) with ⟨hclimbs', -⟩ | ⟨-, ⟨s, hs, hok⟩ | ⟨hnone, herror⟩⟩
  · rw [hclimbs] at hclimbs'
    cases hclimbs'
  · rw [hnames] at hs
    rw [hok, Except.ok.injEq]
    constructor
    · rintro rfl
      exact hs
    · intro hr
      exact ext_encode (hs.trans hr.symm)
  · rw [hnames] at hnone
    rw [herror]
    simpa using hnone r.components

end RelativePath

end TreeArchive
