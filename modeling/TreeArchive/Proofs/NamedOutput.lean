import TreeArchive.Proofs.CanonicalPath
import TreeArchive.Proofs.PlacedArguments

/-!
Where an archive goes that is named on the command line. The name is read as a path behind the
root, so it is the name of a file in the root only if no separator is in it.
-/
namespace TreeArchive

open Text

namespace Path

variable {p q directory : Path} {name : Name}

/-- The path of a file in a directory, under that name. -/
structure StandsIn (p directory : Path) (name : Name) : Prop where
  parent : p.components.dropLast = directory.components
  fileName : p.fileName? = some name

theorem fileName?_eq_some :
    p.fileName? = some name ↔ p.components.getLast? = some (.normal name) := by
  unfold fileName?
  constructor
  · intro h
    split at h
    · rename_i hlast
      rw [hlast, Option.some.inj h]
    · cases h
  · intro h
    rw [h]

theorem StandsIn.ordinary (h : p.StandsIn directory name) : Ordinary name :=
  ordinary_of_mem_components (List.mem_of_getLast? (fileName?_eq_some.1 h.fileName))

theorem standsIn_child (h : Ordinary name) (directory : Path) :
    (directory.child name).StandsIn directory name := by
  have hcomponents := components_child (p := directory) h
  refine ⟨?_, fileName?_eq_some.2 ?_⟩
  · rw [hcomponents, List.dropLast_concat]
  · rw [hcomponents, List.getLast?_concat]

/-- A relative path adds its names to the components of an absolute one. -/
theorem components_append_of_isAbsolute (hp : p.isAbsolute = true) (hq : q.isAbsolute = false) :
    (p.append q).components = p.components ++ q.names.map Component.ofName := by
  rw [components_of_isAbsolute (isAbsolute_append hp q), components_of_isAbsolute hp,
    names_append hq, List.map_append, List.cons_append]

/-- A text is an absolute path if its first character is the separator. -/
theorem isAbsolute_ofString (text : String) :
    (ofString text).isAbsolute = true ↔ text.toList.head? = some '/' := by
  rw [ofString, ofChars, isAbsolute, beq_iff_eq]
  cases text.toList with
  | nil => simp [Utf8.encode]
  | cons c rest =>
    obtain ⟨b, more, hencoded⟩ : ∃ b more, Utf8.encodeChar c = b :: more := by
      unfold Utf8.encodeChar
      dsimp only
      repeat' split
      all_goals exact ⟨_, _, rfl⟩
    have hchar : slash ∈ Utf8.encodeChar c ↔ c = '/' := by
      rw [Utf8.mem_encodeChar (by decide), ← Char.toNat_inj]
      rfl
    rw [Utf8.encode, List.flatMap_cons, hencoded, List.cons_append, List.head?_cons,
      List.head?_cons, Option.some.injEq, Option.some.injEq, ← hchar, hencoded]
    constructor
    · rintro rfl
      exact List.mem_cons_self
    · intro hmem
      -- no other character has the separator among its bytes
      have hslash := hchar.1 (hencoded ▸ hmem)
      rw [hslash] at hencoded
      exact ((List.cons.inj hencoded).1).symm

end Path

namespace Settings

/-- The name of the file that an archive of that name has. -/
def archiveFile (name : String) : Name :=
  Utf8.encode (name ++ ".zip").toList

theorem defaultOutput_eq (root : Path) (name : String) :
    defaultOutput root (some name) = root.normalize.append ⟨archiveFile name⟩ := by
  rfl

/-- A name with `.zip` behind it is an ordinary one, unless a separator is in it. -/
theorem ordinary_archiveFile (name : String) :
    Path.Ordinary (archiveFile name) ↔ '/' ∉ name.toList := by
  have htext : (name ++ ".zip").toList = name.toList ++ ['.', 'z', 'i', 'p'] := by
    rw [String.toList_append]
    rfl
  have hslash : Path.slash ∈ archiveFile name ↔ '/' ∈ name.toList := by
    rw [archiveFile, Utf8.mem_encode (by decide) (by decide : '/'.toNat = Path.slash.toNat), htext]
    simp
  have hlong : 4 ≤ (archiveFile name).length := by
    have hencoded : archiveFile name = Utf8.encode name.toList ++ [0x2E, 0x7A, 0x69, 0x70] := by
      rw [archiveFile, htext, Utf8.encode, List.flatMap_append]
      rfl
    rw [hencoded, List.length_append]
    exact Nat.le_add_left 4 _
  constructor
  · exact fun h => mt hslash.2 h.slash_not_mem
  · intro h
    refine ⟨?_, ?_, mt hslash.1 h⟩
    · -- it is too long to be empty or one dot, and then too long to be two
      rw [Path.isBlank, Bool.or_eq_false_iff, List.isEmpty_eq_false_iff, beq_eq_false_iff_ne]
      constructor
      · intro hnil
        rw [hnil] at hlong
        exact absurd hlong (by decide)
      · intro hdot
        rw [hdot] at hlong
        exact absurd hlong (by decide)
    · intro hdotDot
      rw [hdotDot] at hlong
      exact absurd hlong (by decide)

/-- A named archive goes into the root if its name is one of a file. -/
theorem standsIn_defaultOutput_iff (root : Path) (name : String) :
    (defaultOutput root (some name)).StandsIn root.normalize (archiveFile name) ↔
      '/' ∉ name.toList := by
  rw [← ordinary_archiveFile]
  exact ⟨Path.StandsIn.ordinary, fun h => Path.standsIn_child h root.normalize⟩

end Settings

namespace CommandLine.Arguments

open Settings

variable {here : Path} {words : List Word} {a : Arguments} {name : String}

/-- An output and a name are not accepted together. -/
theorem output_of_parse (hparse : parse words = .ok a) (hname : a.name = some name) :
    a.output = none := by
  obtain ⟨r, -, hconflict⟩ := bind_eq_ok.1 hparse
  cases houtput : r.arguments.output with
  | none =>
    split at hconflict
    · cases hconflict
    · cases hconflict
      exact houtput
  | some output =>
    -- the two exclude each other, so something is told before there are arguments
    exfalso
    have hfound : r.arguments.name = some name → r.arguments.conflict? ≠ none := by
      intro hname
      unfold conflict?
      split
      · simp
      · simp [houtput, hname]
    split at hconflict
    · cases hconflict
    · rename_i hnone
      cases hconflict
      exact hfound hname hnone

/-- What a command line says that gives a name and nothing else. -/
def named (name : String) : Arguments :=
  { Arguments.empty with name := some name }

/-- Every text can be given as a name. -/
theorem parse_named (name : String) :
    parse [word "--name=" ++ Utf8.encode name.toList] = .ok (named name) := by
  have hdecode : Utf8.decode? (Utf8.encode name.toList) = some name.toList :=
    Utf8.decode?_eq_some.2 rfl
  have hread : readText .name (Utf8.encode name.toList) = .ok name := by
    rw [readText, hdecode]
    exact congrArg Except.ok String.ofList_toList
  have hkey : Key.ofLong? (word "name") = some (.parameter .name) := by decide
  have hcut : (word "name=" ++ Utf8.encode name.toList).takeWhile (· != equalsSign) =
      word "name" := rfl
  have hlonger : (word "name").length ≠ (word "name=" ++ Utf8.encode name.toList).length := by
    rw [List.length_append]
    have hname : (word "name").length = 4 := rfl
    have hequals : (word "name=").length = 5 := rfl
    omega
  have hvalue : (word "name=" ++ Utf8.encode name.toList).drop ((word "name").length + 1) =
      Utf8.encode name.toList := rfl
  have hlong : Reading.start.long (word "name=" ++ Utf8.encode name.toList) =
      .ok ⟨named name, none⟩ := by
    simp only [Reading.long, hcut, hkey, if_neg hlonger, hvalue]
    simp only [Reading.setParameter, Reading.settle, Reading.start, Reading.refuseRepeated, isFull,
      assign, hread, bind, Except.bind, pure, Except.pure]
    rfl
  have hwords : Reading.start.words false [word "--name=" ++ Utf8.encode name.toList] =
      .ok ⟨named name, none⟩ := by
    change (Reading.start.long (word "name=" ++ Utf8.encode name.toList) >>=
      fun r => r.words false []) = _
    rw [hlong]
    rfl
  rw [parse, hwords]
  rfl

/-- A text that is given as a name is behind the root what the archive is packed into. The archive
is a file of that name in the root if no separator is in the text. With a separator in front, the
root has no part in where it goes; otherwise the names between the separators, of which any may be
`..`, come behind the components of the root. -/
theorem named_output_in_root_iff (hhere : here.isAbsolute = true) (name : String) :
    (∃ words, parse words = .ok (named name)) ∧
    ∀ words a, parse words = .ok a → a.name = some name →
      let s := a.settings here
      s.root.normalize = s.root ∧
      (s.output.StandsIn s.root (archiveFile name) ↔ '/' ∉ name.toList) ∧
      (name.toList.head? = some '/' → s.output = .ofString (name ++ ".zip")) ∧
      (name.toList.head? ≠ some '/' → s.output.components = s.root.components ++
        (Path.names ⟨archiveFile name⟩).map Path.Component.ofName) := by
  refine ⟨⟨_, parse_named name⟩, ?_⟩
  intro words a hparse hname s
  have hroot : s.root.normalize = s.root := by
    change ((a.root.map (place here)).getD here.normalize).normalize =
      (a.root.map (place here)).getD here.normalize
    cases a.root with
    | none => exact Path.normalize_normalize here
    | some p => exact Path.normalize_normalize (here.append p)
  have houtput : s.output = defaultOutput s.root (some name) := by
    change (a.output.map (place here)).getD (defaultOutput s.root a.name) = _
    rw [output_of_parse hparse hname, hname]
    rfl
  have hfile : (Path.isAbsolute ⟨archiveFile name⟩) = true ↔ name.toList.head? = some '/' := by
    have hstring := Path.isAbsolute_ofString (name ++ ".zip")
    rw [String.toList_append] at hstring
    cases hchars : name.toList with
    | nil =>
      rw [hchars] at hstring
      exact hstring.trans (by decide)
    | cons c rest =>
      rw [hchars] at hstring
      exact hstring
  refine ⟨hroot, ?_, ?_, ?_⟩
  · have hiff := standsIn_defaultOutput_iff s.root name
    rwa [hroot, ← houtput] at hiff
  · intro hhead
    rw [houtput, defaultOutput_eq, Path.append, if_pos (hfile.2 hhead)]
    rfl
  · intro hhead
    have habsolute : s.root.isAbsolute = true := (sound_settings hhere a).root.absolute
    rw [houtput, defaultOutput_eq, hroot]
    apply Path.components_append_of_isAbsolute habsolute
    rw [← Bool.not_eq_true]
    exact mt hfile.1 hhead

/-- An ordinary name is one in the root, however the root is spelled. -/
theorem named_output_in_root_iff_respelled :
    ∃ a, parse [word "-r", word "b/../c/.", word "--name", word "v1"] = .ok a ∧
      (a.settings (.ofString "/d")).output.StandsIn (.ofString "/d/c") (word "v1.zip") := by
  have hparse : parse [word "-r", word "b/../c/.", word "--name", word "v1"] =
      .ok { named "v1" with root := some (.ofString "b/../c/.") } := by cbv
  have hroot : (settings { named "v1" with root := some (.ofString "b/../c/.") }
      (.ofString "/d")).root = .ofString "/d/c" := by cbv
  obtain ⟨-, hnamed⟩ := named_output_in_root_iff (by cbv : (Path.ofString "/d").isAbsolute = true)
    "v1"
  obtain ⟨-, hiff, -, -⟩ := hnamed _ _ hparse rfl
  rw [hroot] at hiff
  exact ⟨_, hparse, hiff.2 (by decide)⟩

/-- A name that climbs takes the archive out of the root. -/
theorem climbing_name_leaves_root :
    ∃ a, parse [word "-r", word "/b", word "-n", word "../up"] = .ok a ∧ a.name = some "../up" ∧
      (a.settings (.ofString "/")).root = .ofString "/b" ∧
      (a.settings (.ofString "/")).output = .ofString "/b/../up.zip" ∧
      (a.settings (.ofString "/")).output.normalize = .ofString "/up.zip" ∧
      ¬(a.settings (.ofString "/")).output.StandsIn (a.settings (.ofString "/")).root
        (archiveFile "../up") := by
  have hparse : parse [word "-r", word "/b", word "-n", word "../up"] =
      .ok { named "../up" with root := some (.ofString "/b") } := by cbv
  refine ⟨_, hparse, rfl, by cbv, by cbv, by cbv, ?_⟩
  intro h
  exact (ordinary_archiveFile "../up").1 h.ordinary (by decide)

end CommandLine.Arguments

end TreeArchive
