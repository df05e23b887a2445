import Mathlib.Data.List.Basic
import TreeArchive.FileSystem.Node

/-! The components of a path under appending a name and under taking a base away. -/
namespace TreeArchive

namespace Text

universe u
variable {α : Type u} {isSep : α → Bool} {sep : α} {s part : List α} {parts : List (List α)}

theorem pieces_of_forall (h : ∀ a ∈ s, isSep a = false) : pieces isSep s = [s] := by
  induction s with
  | nil => rfl
  | cons a rest ih =>
    rw [List.forall_mem_cons] at h
    simp [pieces, h.1, ih h.2]

theorem pieces_append (hsep : isSep sep = true) (s t : List α) :
    pieces isSep (s ++ sep :: t) = pieces isSep s ++ pieces isSep t := by
  induction s with
  | nil => simp [pieces, hsep]
  | cons a rest ih =>
    by_cases ha : isSep a = true
    · simp [pieces, ha, ih]
    · simp only [List.cons_append, pieces, ha, ih]
      cases hrest : pieces isSep rest with
      | nil => exact absurd hrest (pieces_ne_nil _ _)
      | cons piece others => rfl

theorem pieces_join (hsep : isSep sep = true) (hne : parts ≠ [])
    (h : ∀ part ∈ parts, ∀ a ∈ part, isSep a = false) : pieces isSep (join sep parts) = parts := by
  induction parts with
  | nil => exact absurd rfl hne
  | cons part rest ih =>
    have hpart := h part List.mem_cons_self
    cases rest with
    | nil => exact pieces_of_forall hpart
    | cons next rest =>
      rw [join, pieces_append hsep, pieces_of_forall hpart,
        ih (by simp) fun p hp => h p (List.mem_cons_of_mem _ hp)]
      · rfl
      · simp

theorem isSep_of_mem_pieces (h : part ∈ pieces isSep s) : ∀ a ∈ part, isSep a = false := by
  induction s generalizing part with
  | nil =>
    simp only [pieces, List.mem_singleton] at h
    simp [h]
  | cons a rest ih =>
    by_cases ha : isSep a = true
    · simp only [pieces, ha, if_true, List.mem_cons] at h
      rcases h with rfl | h
      · simp
      · exact ih h
    · cases hrest : pieces isSep rest with
      | nil => exact absurd hrest (pieces_ne_nil _ _)
      | cons piece others =>
        simp only [pieces, ha, hrest] at h
        rcases List.mem_cons.1 h with rfl | h
        · rw [List.forall_mem_cons]
          exact ⟨by simpa using ha, ih (by rw [hrest]; exact List.mem_cons_self)⟩
        · exact ih (by rw [hrest]; exact List.mem_cons_of_mem _ h)

variable [BEq α] [LawfulBEq α]

theorem not_mem_iff_forall : sep ∉ s ↔ ∀ a ∈ s, (a == sep) = false := by
  constructor
  · intro h a ha
    rw [beq_eq_false_iff_ne]
    rintro rfl
    exact h ha
  · intro h hmem
    simpa using h sep hmem

end Text

namespace Path

/-- A name that stands for itself in a path. -/
structure Ordinary (name : Name) : Prop where
  nonblank : isBlank name = false
  ne_dotDot : name ≠ dotDotName
  slash_not_mem : slash ∉ name

theorem Ordinary.ne_nil {name : Name} (h : Ordinary name) : name ≠ [] := by
  rintro rfl
  simpa [isBlank] using h.nonblank

theorem Ordinary.ne_dot {name : Name} (h : Ordinary name) : name ≠ dotName := by
  rintro rfl
  simpa [isBlank] using h.nonblank

theorem Ordinary.ofName {name : Name} (h : Ordinary name) :
    Component.ofName name = .normal name := by
  simp [Component.ofName, h.ne_dotDot]

theorem ordinary_of_isLegalName {name : Name} (h : isLegalName name = true) : Ordinary name := by
  simp only [isLegalName, Bool.and_eq_true, Bool.not_eq_true', bne_iff_ne,
    List.isEmpty_eq_false_iff, List.contains_eq_mem, decide_eq_false_iff_not] at h
  obtain ⟨⟨⟨⟨⟨hempty, hdot⟩, hdotDot⟩, -⟩, hslash⟩, -⟩ := h
  exact ⟨by simp [isBlank, hempty, hdot], hdotDot, hslash⟩

/-- The named components of a path, as they stand between separators. -/
def names (p : Path) : List Name :=
  p.segments.filter (!isBlank ·)

theorem components_of_isAbsolute {p : Path} (h : p.isAbsolute = true) :
    p.components = .root :: p.names.map Component.ofName := by
  simp [components, names, h]

theorem components_of_relative {p : Path} (h : p.isAbsolute = false) :
    p.components = (if p.segments.head? = some dotName then [.current] else []) ++
      p.names.map Component.ofName := by
  by_cases hdot : p.segments.head? = some dotName <;> simp [components, names, h, hdot]

theorem segments_append {s t : List UInt8} :
    segments ⟨s ++ slash :: t⟩ = segments ⟨s⟩ ++ segments ⟨t⟩ := by
  apply Text.pieces_append
  exact beq_self_eq_true slash

theorem segments_of_ordinary {name : Name} (h : Ordinary name) : segments ⟨name⟩ = [name] :=
  Text.pieces_of_forall (Text.not_mem_iff_forall.1 h.slash_not_mem)

theorem isAbsolute_of_ordinary {name : Name} (h : Ordinary name) : isAbsolute ⟨name⟩ = false := by
  cases name with
  | nil => rfl
  | cons b rest =>
    have hne : b ≠ slash := by
      rintro rfl
      exact h.slash_not_mem List.mem_cons_self
    simp [isAbsolute, hne]

theorem names_of_ordinary {name : Name} (h : Ordinary name) : names ⟨name⟩ = [name] := by
  simp [names, segments_of_ordinary h, h.nonblank]

theorem components_slash_cons (u : List UInt8) :
    components ⟨slash :: u⟩ = .root :: (names ⟨u⟩).map Component.ofName := by
  have hsegments : segments ⟨slash :: u⟩ = [] :: segments ⟨u⟩ := by simp [segments, Text.pieces]
  rw [components_of_isAbsolute (by rfl), names, hsegments]
  simp [names, isBlank]

/-- What stands behind a separator adds its names to what stands before. -/
theorem components_append_slash {t : List UInt8} (ht : t ≠ []) (u : List UInt8) :
    components ⟨t ++ slash :: u⟩ = components ⟨t⟩ ++ (names ⟨u⟩).map Component.ofName := by
  obtain ⟨b, rest, rfl⟩ := List.exists_cons_of_ne_nil ht
  have hhead : (segments ⟨b :: rest⟩ ++ segments ⟨u⟩).head? = (segments ⟨b :: rest⟩).head? := by
    cases hsegments : segments ⟨b :: rest⟩ with
    | nil => exact absurd hsegments (Text.pieces_ne_nil _ _)
    | cons first others => rfl
  have hnames : names ⟨b :: rest ++ slash :: u⟩ = names ⟨b :: rest⟩ ++ names ⟨u⟩ := by
    rw [names, segments_append, List.filter_append]
    rfl
  have habsolute : isAbsolute ⟨b :: rest ++ slash :: u⟩ = isAbsolute ⟨b :: rest⟩ := rfl
  cases hroot : isAbsolute ⟨b :: rest⟩ with
  | true =>
    rw [components_of_isAbsolute (habsolute.trans hroot), components_of_isAbsolute hroot, hnames,
      List.map_append, List.cons_append]
  | false =>
    rw [components_of_relative (habsolute.trans hroot), components_of_relative hroot, hnames,
      segments_append, hhead, List.map_append, List.append_assoc]

/-- A name below a path is one more component of it. -/
theorem components_child {p : Path} {name : Name} (h : Ordinary name) :
    (p.child name).components = p.components ++ [.normal name] := by
  obtain ⟨bytes⟩ := p
  have hname : (names ⟨name⟩).map Component.ofName = [.normal name] := by
    rw [names_of_ordinary h, List.map_singleton, h.ofName]
  have hchild : child ⟨bytes⟩ name =
      if bytes.isEmpty || bytes.getLast? == some slash then ⟨bytes ++ name⟩
      else ⟨bytes ++ slash :: name⟩ := by
    simp [child, append, isAbsolute_of_ordinary h]
  rw [hchild]
  -- an empty path and one that ends in a separator take the name without another one
  rcases List.eq_nil_or_concat' bytes with rfl | ⟨front, last, rfl⟩
  · have hrelative := components_of_relative (isAbsolute_of_ordinary h)
    rw [segments_of_ordinary h, hname] at hrelative
    have hempty : components ⟨[]⟩ = [] := rfl
    simpa [h.ne_dot, hempty] using hrelative
  · by_cases hlast : last = slash
    · subst hlast
      have hleft : front ++ [slash] ++ name = front ++ slash :: name := by simp
      rw [if_pos (by simp), hleft]
      cases front with
      | nil =>
        rw [List.nil_append, List.nil_append, components_slash_cons, components_slash_cons, hname]
        rfl
      | cons b rest =>
        rw [components_append_slash (by simp), components_append_slash (by simp), hname]
        simp [names, segments, Text.pieces, isBlank]
    · rw [if_neg (by simp [hlast]), components_append_slash (by simp), hname]

/-- The path through some names below a path. -/
def below (p : Path) (names : List Name) : Path :=
  names.foldl child p

@[simp] theorem below_nil (p : Path) : p.below [] = p := rfl

@[simp] theorem below_cons (p : Path) (name : Name) (rest : List Name) :
    p.below (name :: rest) = (p.child name).below rest := rfl

theorem below_append (p : Path) (front back : List Name) :
    p.below (front ++ back) = (p.below front).below back :=
  List.foldl_append

theorem below_concat (p : Path) (front : List Name) (name : Name) :
    p.below (front ++ [name]) = (p.below front).child name :=
  p.below_append front [name]

theorem components_below {p : Path} {names : List Name} (h : ∀ name ∈ names, Ordinary name) :
    (p.below names).components = p.components ++ names.map .normal := by
  induction names generalizing p with
  | nil => simp
  | cons name rest ih =>
    rw [below_cons, ih fun n hn => h n (List.mem_cons_of_mem _ hn),
      components_child (h name List.mem_cons_self), List.append_assoc, List.map_cons,
      List.singleton_append]

theorem below_injective {p : Path} {front back : List Name} (hfront : ∀ n ∈ front, Ordinary n)
    (hback : ∀ n ∈ back, Ordinary n) (h : p.below front = p.below back) : front = back := by
  have hcomponents := congrArg components h
  rw [components_below hfront, components_below hback] at hcomponents
  have hnames := List.append_cancel_left hcomponents
  exact List.map_injective_iff.2 (fun _ _ => Component.normal.inj) hnames

end Path

end TreeArchive
