import TreeArchive.Proofs.Cleared
import TreeArchive.Proofs.Lexical
import TreeArchive.Proofs.PortableName

/-!
The path by which an entry is opened. A walk finds a file below its source, and a run opens it
behind the root; both paths lead to the same file, if the second is not too long.
-/
namespace TreeArchive

open FileSystem Text

namespace Text.Utf8

theorem encode_join (parts : List (List Char)) :
    encode (join '/' parts) = join Path.slash (parts.map encode) := by
  have hslash : encodeChar '/' = [Path.slash] := by decide
  induction parts with
  | nil => rfl
  | cons part rest ih =>
    cases rest with
    | nil => rfl
    | cons next others =>
      rw [List.map_cons] at ih
      simp only [List.map_cons, join]
      rw [← ih]
      simp [encode, hslash]

end Text.Utf8

namespace Path

variable {p q : Path} {names : List Name}

theorem append_of_relative (h : q.isAbsolute = false) (p : Path) : p.append q =
    ⟨p.bytes ++ ((if p.bytes.isEmpty || p.bytes.getLast? == some slash then [] else [slash]) ++
      q.bytes)⟩ := by
  simp only [append, h, Bool.false_eq_true, if_false]
  split <;> rfl

theorem isAbsolute_join (hne : names ≠ []) (h : ∀ n ∈ names, Ordinary n) :
    isAbsolute ⟨join slash names⟩ = false := by
  obtain ⟨first, rest, rfl⟩ := List.exists_cons_of_ne_nil hne
  have hfirst := isAbsolute_of_ordinary (h first List.mem_cons_self)
  obtain ⟨b, name, rfl⟩ := List.exists_cons_of_ne_nil (h first List.mem_cons_self).ne_nil
  cases rest <;> exact hfirst

theorem bytes_child_ne_nil {name : Name} (h : Ordinary name) (p : Path) :
    (p.child name).bytes ≠ [] := by
  rcases child_bytes (d := p) h with ⟨hbytes, -⟩ | ⟨hbytes, -⟩ <;> simp [hbytes, h.ne_nil]

/-- Names behind a path may be appended one by one or all at once. -/
theorem append_join (hne : names ≠ []) (h : ∀ n ∈ names, Ordinary n) (p : Path) :
    p.append ⟨join slash names⟩ = p.below names := by
  induction names generalizing p with
  | nil => exact absurd rfl hne
  | cons first rest ih =>
    have hfirst := h first List.mem_cons_self
    have hrest : ∀ n ∈ rest, Ordinary n := fun n hn => h n (List.mem_cons_of_mem _ hn)
    cases hnil : rest with
    | nil => rfl
    | cons next others =>
      rw [hnil] at ih hrest
      have hnext := isAbsolute_join (by simp) hrest
      -- a name never ends in a separator, so one stands between it and the next
      have hlast : (p.child first).bytes.getLast? ≠ some slash := getLast?_child hfirst
      have hsome : (p.child first).bytes ≠ [] := bytes_child_ne_nil hfirst p
      have hbehind : (p.child first).append ⟨join slash (next :: others)⟩ =
          ⟨(p.child first).bytes ++ slash :: join slash (next :: others)⟩ := by
        rw [append_of_relative hnext, if_neg (by simp [hsome, hlast])]
        rfl
      rw [below_cons, ← ih (by simp) hrest, hbehind, child,
        append_of_relative (isAbsolute_of_ordinary hfirst),
        append_of_relative (isAbsolute_join (by simp) (hnil ▸ h))]
      simp [join]

theorem bytes_below_ne_nil (hne : names ≠ []) (h : ∀ n ∈ names, Ordinary n) (p : Path) :
    (p.below names).bytes ≠ [] := by
  obtain ⟨front, name, rfl⟩ := (List.eq_nil_or_concat' names).resolve_left hne
  rw [below_concat]
  exact bytes_child_ne_nil (h name (by simp)) _

theorem getLast?_steps_below (hne : names ≠ []) (h : ∀ n ∈ names, Ordinary n) (p : Path) :
    (p.below names).steps.getLast? ≠ some dotName := by
  obtain ⟨front, name, rfl⟩ := (List.eq_nil_or_concat' names).resolve_left hne
  have hname := h name (by simp)
  rw [below_concat, steps_child hname, List.getLast?_concat]
  simpa using hname.ne_dot

/-- All bytes of a path but separators and dots are in its names. -/
theorem mem_bytes_iff {b : UInt8} (hslash : b ≠ slash) (hdot : b ∉ dotName) (p : Path) :
    b ∈ p.bytes ↔ ∃ name ∈ p.names, b ∈ name := by
  have hbytes : p.bytes = join slash p.segments := (join_pieces slash p.bytes).symm
  rw [hbytes, mem_join hslash]
  constructor
  · rintro ⟨part, hpart, hb⟩
    refine ⟨part, List.mem_filter.2 ⟨hpart, ?_⟩, hb⟩
    rw [Bool.not_eq_true', isBlank, Bool.or_eq_false_iff, List.isEmpty_eq_false_iff,
      beq_eq_false_iff_ne]
    exact ⟨List.ne_nil_of_mem hb, fun heq => hdot (heq ▸ hb)⟩
  · rintro ⟨name, hname, hb⟩
    exact ⟨name, (List.mem_filter.1 hname).1, hb⟩

end Path

namespace RelativePath

variable {p root : Path} {r : RelativePath}

/-- What has been read was in components that are names, but for a leading `.`. -/
theorem filter_of_readComponents {whole relative : Path} {cs : List Path.Component}
    {components : List (List Char)} (h : readComponents whole relative cs = .ok components) :
    cs.filter (· != .current) = (components.map Utf8.encode).map .normal := by
  induction cs generalizing components with
  | nil =>
    cases h
    rfl
  | cons c rest ih =>
    cases c with
    | root => cases h
    | parent => cases h
    | current => exact ih h
    | normal name =>
      rw [readComponents] at h
      cases hdecode : Utf8.decode? name with
      | none => simp [hdecode] at h
      | some component =>
        cases hrest : readComponents whole relative rest with
        | error f => simp [hdecode, hrest] at h
        | ok others =>
          simp only [hdecode, hrest] at h
          cases h
          rw [List.filter_cons_of_pos (by simp), ih hrest, List.map_cons, List.map_cons,
            Utf8.decode?_eq_some.1 hdecode]

theorem ordinary_encode {name : Name} (h : name ∈ r.components.map Utf8.encode) :
    Path.Ordinary name := by
  obtain ⟨c, hc, rfl⟩ := List.mem_map.1 h
  obtain ⟨hempty, hdot, hdotDot, hslash⟩ := isOrdinary_eq_true.1 (r.ordinary c hc)
  have hne {text : List Char} (hc : c ≠ text) : Utf8.encode c ≠ Utf8.encode text := fun heq =>
    hc (Utf8.encode_injective heq)
  refine ⟨?_, hne hdotDot, mt (Utf8.mem_encode (by decide) (by decide) c).1 hslash⟩
  rw [Path.isBlank, Bool.or_eq_false_iff, List.isEmpty_eq_false_iff, beq_eq_false_iff_ne]
  exact ⟨hne hempty, hne hdot⟩

theorem encoded_ne_nil (r : RelativePath) : r.components.map Utf8.encode ≠ [] := by
  simpa using r.components_ne_nil

theorem resolve_eq_below (r : RelativePath) (root : Path) :
    r.resolve root = root.below (r.components.map Utf8.encode) := by
  rw [resolve, toPath, Path.ofChars, chars, Utf8.encode_join]
  exact Path.append_join r.encoded_ne_nil (fun _ => ordinary_encode) root

/-- Behind the root, the relative form of a path starts where the path does and has its names. -/
theorem names_resolve (h : fromRoot p root = .ok r) :
    (r.resolve root).isAbsolute = p.isAbsolute ∧ (r.resolve root).names = p.names := by
  obtain ⟨relative, hcomponents, hread⟩ := exists_of_fromRoot h
  -- the components agree but for those that are `.`, which no name comes from
  apply Path.names_eq_of_components
  rw [resolve_eq_below, Path.components_below fun _ => ordinary_encode, hcomponents,
    List.filter_append, List.filter_append, filter_of_readComponents hread]
  congr 1
  rw [List.filter_eq_self]
  simp

/-- A path that can be looked up can be so behind the root, unless it is too long there. -/
theorem checkPath_resolve (h : fromRoot p root = .ok r) (hcheck : checkPath p = .ok ()) :
    checkPath (r.resolve root) =
      if maxPath ≤ (r.resolve root).bytes.length then .error (.system .nameTooLong)
      else .ok () := by
  obtain ⟨hnul, -, -⟩ := checkPath_eq_ok.1 hcheck
  -- the same names hold the same bytes, so only the length can differ
  have hfree : (0 : UInt8) ∉ (r.resolve root).bytes := by
    rw [Path.mem_bytes_iff (by decide) (by decide), (names_resolve h).2,
      ← Path.mem_bytes_iff (by decide) (by decide)]
    simpa using hnul
  have hsome : (r.resolve root).bytes ≠ [] := by
    rw [resolve_eq_below]
    exact Path.bytes_below_ne_nil r.encoded_ne_nil (fun _ => ordinary_encode) root
  simp [checkPath, hfree, hsome]

end RelativePath

namespace FileSystem

variable {fs : FileSystem} {source root : Path} {names : List Name} {r : RelativePath}

/-- Behind the root a path leads where it led below the source, if it is not too long there. -/
theorem find_resolve (hne : names ≠ []) (hlegal : ∀ n ∈ names, isLegalName n = true)
    (hrelative : RelativePath.fromRoot (source.below names) root = .ok r)
    (hcheck : checkPath (source.below names) = .ok ())
    (hshort : (r.resolve root).bytes.length < maxPath) (follow : Bool) :
    fs.find (r.resolve root) follow = fs.find (source.below names) follow := by
  have hordinary : ∀ n ∈ names, Path.Ordinary n := fun n hn =>
    Path.ordinary_of_isLegalName (hlegal n hn)
  obtain ⟨habsolute, hnames⟩ := RelativePath.names_resolve hrelative
  have hcheck' := RelativePath.checkPath_resolve hrelative hcheck
  rw [if_neg (by omega)] at hcheck'
  have hlast := Path.getLast?_steps_below r.encoded_ne_nil
    (fun _ => RelativePath.ordinary_encode) root
  rw [← RelativePath.resolve_eq_below] at hlast
  rw [find, find, locate_eq_of_names hcheck' hcheck hlast
    (Path.getLast?_steps_below hne hordinary source) habsolute hnames]

/-- What comes of opening a file behind the root. -/
theorem openFile_resolve {l : Location} {data : FileData} (hne : names ≠ [])
    (hlegal : ∀ n ∈ names, isLegalName n = true)
    (hrelative : RelativePath.fromRoot (source.below names) root = .ok r)
    (hfind : fs.find (source.below names) true = .ok (l, .file data)) :
    fs.openFile (r.resolve root) =
      if maxPath ≤ (r.resolve root).bytes.length then .error (.system .nameTooLong)
      else if data.isReadable then .ok ⟨data.mode, .ok data.content⟩
      else .error (.system .permissionDenied) := by
  obtain ⟨hcheck, -⟩ := find_walk hfind
  rw [openFile]
  by_cases hlong : maxPath ≤ (r.resolve root).bytes.length
  · rw [if_pos hlong, find, locate, RelativePath.checkPath_resolve hrelative hcheck, if_pos hlong]
    rfl
  · rw [if_neg hlong, find_resolve hne hlegal hrelative hcheck (by omega), hfind]
    rfl

/-- A path leads below the source where it leads behind the root. -/
theorem LeadsTo.of_resolve {l l' : Location} {node : Node} (hne : names ≠ [])
    (hlegal : ∀ n ∈ names, isLegalName n = true)
    (hrelative : RelativePath.fromRoot (source.below names) root = .ok r)
    (hfind : fs.find (source.below names) true = .ok (l, node))
    (h : fs.LeadsTo (r.resolve root) l') : fs.LeadsTo (source.below names) l' := by
  obtain ⟨node', hfind'⟩ := h
  obtain ⟨hcheck, -⟩ := find_walk hfind
  obtain ⟨hcheck', -⟩ := find_walk hfind'
  rw [find_resolve hne hlegal hrelative hcheck (checkPath_eq_ok.1 hcheck').2.2] at hfind'
  exact ⟨node', hfind'⟩

end FileSystem

end TreeArchive
