import Mathlib
import TreeArchive.FileSystem.Literal
import TreeArchive.Proofs.FailedRun
import TreeArchive.Proofs.OwnOutput
import TreeArchive.Proofs.Stages

/-!
Names of members that read as the same relative path whichever separator a host has. A name that is
made of the components of a path has a backslash wherever one of them has.
-/
namespace TreeArchive

open FileSystem

namespace Text

universe u
variable {α : Type u}

theorem join_pieces [BEq α] [LawfulBEq α] (sep : α) (s : List α) :
    join sep (pieces (· == sep) s) = s := by
  induction s with
  | nil => rfl
  | cons a rest ih =>
    cases hrest : pieces (· == sep) rest with
    | nil => exact absurd hrest (pieces_ne_nil _ _)
    | cons piece others =>
      rw [hrest] at ih
      by_cases ha : (a == sep) = true
      · obtain rfl := eq_of_beq ha
        simp [pieces, hrest, join, ih]
      · cases others with
        | nil => simpa [pieces, ha, hrest, join] using ih
        | cons next others => simpa [pieces, ha, hrest, join] using ih

theorem pieces_congr {isSep isSep' : α → Bool} {s : List α} (h : ∀ a ∈ s, isSep a = isSep' a) :
    pieces isSep s = pieces isSep' s := by
  induction s with
  | nil => rfl
  | cons a rest ih =>
    rw [List.forall_mem_cons] at h
    simp only [pieces, h.1, ih h.2]

theorem mem_join {sep a : α} {parts : List (List α)} (ha : a ≠ sep) :
    a ∈ join sep parts ↔ ∃ part ∈ parts, a ∈ part := by
  induction parts with
  | nil => simp [join]
  | cons part rest ih =>
    cases rest with
    | nil => simp [join]
    | cons next rest =>
      rw [join, List.mem_append, List.mem_cons, ih]
      · simp [ha]
      · simp

namespace Utf8

/-- A byte below 0x80 stands for one character and is part of no other. -/
theorem mem_encodeChar {b : UInt8} {c : Char} (hb : b.toNat < 0x80) :
    b ∈ encodeChar c ↔ c.toNat = b.toNat := by
  have hvalid : c.toNat < 0x110000 := by
    rcases c.valid with h | ⟨-, h⟩
    · exact Nat.lt_trans h (by decide)
    · exact h
  have hnat {n : Nat} (h : n < 256) : b = UInt8.ofNat n ↔ n = b.toNat := by
    rw [← UInt8.toNat_inj, UInt8.toNat_ofNat', Nat.mod_eq_of_lt h, eq_comm]
  unfold encodeChar
  dsimp only
  -- in the longer forms every byte is 0x80 or more
  split
  · rw [List.mem_singleton, hnat (by omega)]
  · split
    · simp only [List.mem_cons, List.not_mem_nil, or_false]
      rw [hnat (by omega), hnat (by omega)]
      omega
    · split
      · simp only [List.mem_cons, List.not_mem_nil, or_false]
        rw [hnat (by omega), hnat (by omega), hnat (by omega)]
        omega
      · simp only [List.mem_cons, List.not_mem_nil, or_false]
        rw [hnat (by omega), hnat (by omega), hnat (by omega), hnat (by omega)]
        omega

theorem mem_encode {b : UInt8} {c : Char} (hb : b.toNat < 0x80) (hc : c.toNat = b.toNat)
    (text : List Char) : b ∈ encode text ↔ c ∈ text := by
  rw [encode, List.mem_flatMap]
  constructor
  · rintro ⟨d, hd, hmem⟩
    rw [mem_encodeChar hb, ← hc] at hmem
    rwa [← Char.toNat_inj.1 hmem]
  · intro h
    exact ⟨c, h, (mem_encodeChar hb).2 hc⟩

end Utf8

end Text

open Text

namespace Path

def backslash : UInt8 := 0x5C

/-- No name of a path has a backslash behind the components of the root. -/
def FreeOfBackslash (p root : Path) : Prop :=
  ∀ name, .normal name ∈ p.components.drop root.components.length → backslash ∉ name

end Path

/-- A text that reads as the same relative path whether `/` or `\` separates its components. -/
structure Portable (text : String) : Prop where
  ne_empty : text ≠ ""
  no_backslash : '\\' ∉ text.toList
  relative : text.toList.head?.any RelativePath.isSeparator = false
  ordinary : ∀ part ∈ pieces RelativePath.isSeparator text.toList,
    part ≠ [] ∧ part ≠ ['.'] ∧ part ≠ ['.', '.']

namespace RelativePath

theorem isOrdinary_eq_true {c : List Char} :
    isOrdinary c = true ↔ c ≠ [] ∧ c ≠ ['.'] ∧ c ≠ ['.', '.'] ∧ '/' ∉ c := by
  simp [isOrdinary, and_assoc]

theorem toList_text (r : RelativePath) : r.text.toList = join '/' r.components :=
  String.toList_ofList

theorem isSeparator_eq_false {c : Char} : isSeparator c = false ↔ c ≠ '/' ∧ c ≠ '\\' := by
  simp [isSeparator]

theorem pieces_text {r : RelativePath} (h : ∀ c ∈ r.components, '\\' ∉ c) :
    pieces isSeparator r.text.toList = r.components := by
  rw [toList_text]
  apply pieces_join (by rfl) r.components_ne_nil
  intro c hc a ha
  rw [isSeparator_eq_false]
  constructor
  · rintro rfl
    exact (isOrdinary_eq_true.1 (r.ordinary c hc)).2.2.2 ha
  · rintro rfl
    exact h c hc ha

/-- The text of a relative path is portable unless one of its components has a backslash. -/
theorem portable_text_iff (r : RelativePath) :
    Portable r.text ↔ ∀ c ∈ r.components, '\\' ∉ c := by
  constructor
  · intro h c hc hmem
    apply h.no_backslash
    rw [toList_text, mem_join (by decide)]
    exact ⟨c, hc, hmem⟩
  · intro h
    have hpieces := pieces_text h
    have hordinary : ∀ part ∈ pieces isSeparator r.text.toList,
        part ≠ [] ∧ part ≠ ['.'] ∧ part ≠ ['.', '.'] := by
      intro part hpart
      rw [hpieces] at hpart
      obtain ⟨hnil, hdot, hdotDot, -⟩ := isOrdinary_eq_true.1 (r.ordinary part hpart)
      exact ⟨hnil, hdot, hdotDot⟩
    -- an empty text and a separator in front would both make an empty first piece
    refine ⟨?_, ?_, ?_, hordinary⟩
    · intro hempty
      exact (hordinary [] (by rw [hempty]; exact List.mem_singleton_self _)).1 rfl
    · rw [toList_text, mem_join (by decide)]
      rintro ⟨c, hc, hmem⟩
      exact h c hc hmem
    · by_contra hhead
      rw [Bool.not_eq_false] at hhead
      cases htext : r.text.toList with
      | nil => simp [htext] at hhead
      | cons a rest =>
        have ha : isSeparator a = true := by simpa [htext] using hhead
        refine (hordinary [] ?_).1 rfl
        rw [htext, pieces, if_pos ha]
        exact List.mem_cons_self

theorem parse_eq_ok {text : String} {r : RelativePath} (h : parse text = .ok r) :
    r.components =
      (pieces isSeparator text.toList).filter fun part => !part.isEmpty && part != ['.'] := by
  unfold parse at h
  dsimp only at h
  split at h
  · cases h
  · split at h
    · cases h
    · split at h
      · rename_i found hfound
        cases h
        exact ofComponents?_eq_some.1 hfound
      · cases h

/-- Whatever a text is read as, the result is portable. -/
theorem portable_of_parse {text : String} {r : RelativePath} (h : parse text = .ok r) :
    Portable r.text := by
  rw [portable_text_iff, parse_eq_ok h]
  intro c hc hmem
  have hpiece := isSep_of_mem_pieces (List.mem_filter.1 hc).1 _ hmem
  exact absurd hpiece (by decide)

/-- A portable text is read as the relative path with this text. -/
theorem parse_of_portable {text : String} (h : Portable text) :
    ∃ r, parse text = .ok r ∧ r.text = text := by
  have hfilter : ((pieces isSeparator text.toList).filter fun part =>
      !part.isEmpty && part != ['.']) = pieces isSeparator text.toList := by
    rw [List.filter_eq_self]
    intro part hpart
    obtain ⟨hnil, hdot, -⟩ := h.ordinary part hpart
    simp [hnil, hdot]
  have hparent : (pieces isSeparator text.toList).contains ['.', '.'] = false := by
    by_contra hmem
    rw [Bool.not_eq_false, List.contains_iff_mem] at hmem
    exact (h.ordinary _ hmem).2.2 rfl
  have hall : ∀ c ∈ pieces isSeparator text.toList, isOrdinary c = true := by
    intro c hc
    obtain ⟨hnil, hdot, hdotDot⟩ := h.ordinary c hc
    refine isOrdinary_eq_true.2 ⟨hnil, hdot, hdotDot, ?_⟩
    intro hmem
    exact absurd (isSep_of_mem_pieces hc _ hmem) (by decide)
  obtain ⟨r, hr⟩ : ∃ r, ofComponents? (pieces isSeparator text.toList) = some r :=
    ⟨⟨_, pieces_ne_nil _ _, hall⟩, ofComponents?_eq_some.2 rfl⟩
  refine ⟨r, ?_, ?_⟩
  · simp only [parse, hfilter, h.relative, hparent, hr, Bool.false_eq_true, if_false]
  · -- without a backslash the pieces are those between the slashes
    have hslash : pieces isSeparator text.toList = pieces (· == '/') text.toList := by
      apply pieces_congr
      intro a ha
      have hne : (a == '\\') = false := by
        rw [beq_eq_false_iff_ne]
        rintro rfl
        exact h.no_backslash ha
      rw [isSeparator, hne, Bool.or_false]
    apply String.toList_inj.1
    rw [toList_text, ofComponents?_eq_some.1 hr, hslash, join_pieces]

/-- A relative form is read from what stands behind the components of the root. -/
theorem exists_of_fromRoot {p root : Path} {r : RelativePath} (h : fromRoot p root = .ok r) :
    ∃ relative : Path, p.components = root.components ++ relative.components ∧
      readComponents p relative relative.components = .ok r.components := by
  unfold fromRoot at h
  cases hstrip : p.strip? root with
  | none =>
    rw [hstrip] at h
    cases h
  | some relative =>
    simp only [hstrip] at h
    obtain ⟨components, hread, h⟩ := bind_eq_ok.1 h
    refine ⟨relative, ?_, ?_⟩
    · unfold Path.strip? at hstrip
      split at hstrip
      · rename_i hinit
        obtain ⟨rest, hrest⟩ := List.isPrefixOf_iff_prefix.1 hinit
        cases hstrip
        rw [p.components_afterComponents, ← hrest, List.drop_left]
      · cases hstrip
    · split at h
      · rename_i found hfound
        cases h
        rw [hread, ofComponents?_eq_some.1 hfound]
      · cases h

/-- The components of a relative form are the names behind those of the root. -/
theorem components_of_fromRoot {p root : Path} {r : RelativePath} (h : fromRoot p root = .ok r) :
    r.components.map Utf8.encode =
      (p.components.drop root.components.length).filterMap Path.Component.name? := by
  obtain ⟨relative, hcomponents, hread⟩ := exists_of_fromRoot h
  rw [hcomponents, List.drop_left]
  cases hclimbs : climbs relative.components with
  | true =>
    obtain ⟨fault, hfail⟩ := readComponents_of_climbs p relative hclimbs
    rw [hread] at hfail
    cases hfail
  | false =>
    rcases readComponents_of_not_climbs p relative hclimbs with ⟨found, hnames, hok⟩ | ⟨-, hfail⟩
    · rw [hread] at hok
      cases hok
      exact hnames
    · rw [hread] at hfail
      cases hfail

/-- The relative form of a path is portable unless a name behind the root has a backslash. -/
theorem portable_fromRoot_iff {p root : Path} {r : RelativePath} (h : fromRoot p root = .ok r) :
    Portable r.text ↔ p.FreeOfBackslash root := by
  have hencoded (c : List Char) : '\\' ∉ c ↔ Path.backslash ∉ Utf8.encode c :=
    not_congr (Utf8.mem_encode (by decide) (by decide) c).symm
  have hnames : (∀ c ∈ r.components, '\\' ∉ c) ↔
      ∀ name ∈ r.components.map Utf8.encode, Path.backslash ∉ name := by
    simp only [List.forall_mem_map, hencoded]
  rw [portable_text_iff, hnames, components_of_fromRoot h]
  simp only [List.mem_filterMap, Path.Component.name?_eq_some, Path.FreeOfBackslash]
  constructor
  · intro hfree name hname
    exact hfree name ⟨_, hname, rfl⟩
  · rintro hfree name ⟨_, hname, rfl⟩
    exact hfree name hname

end RelativePath

namespace Pack

variable {s : Settings} {fs : FileSystem}

/-- The entries that a run takes from its walk have the relative forms of paths below the source. -/
theorem relative_of_mem_taken {w : Walk} {fs₁ : FileSystem} {handle : Handle}
    {t : FileSystem × Entry} (hwalk : Walk.ofSettings s = .ok w)
    (h : t ∈ takenFromTree s w fs₁ handle) :
    ∃ names, names ≠ [] ∧ (∀ n ∈ names, isLegalName n = true) ∧
      RelativePath.fromRoot (s.source.below names) s.root = .ok t.2.relative := by
  obtain ⟨-, hmem⟩ := mem_items_of_mem_taken h
  obtain ⟨i, hi, hunsized⟩ := List.mem_map.1 hmem
  obtain ⟨e, rfl, -, hrelative⟩ := eq_of_unsized_eq hunsized
  obtain ⟨names, data, hfound, hform, -⟩ := (Walk.mem_items_past_output hwalk).1 hi
  exact ⟨names, hfound.listed.ne_nil, hfound.listed.legal, hrelative ▸ hform⟩

/-- After a run that succeeds the output holds an archive whose members are named by the relative
forms of paths below the source. -/
theorem names_of_packTree {report : Report} (hok : (packTree s fs).result = .ok report) :
    ∃ l data records, (packTree s fs).fs.find s.output true = .ok (l, .file data) ∧
      data.content = Archive.image records ∧ data.records = some records ∧
      ∀ record ∈ records, ∃ names relative, names ≠ [] ∧ (∀ n ∈ names, isLegalName n = true) ∧
        RelativePath.fromRoot (s.source.below names) s.root = .ok relative ∧
        record.member.name = relative.text := by
  obtain ⟨w, hvalid, hwalk⟩ := exists_walk_of_ok hok
  rw [packTree_eq hvalid hwalk] at hok ⊢
  obtain ⟨fs₀, replaced, fs₁, handle, hreset, hcreate⟩ := exists_created_of_ok hok
  obtain ⟨hfs, -⟩ := packFrom_created s walking (w.skip s.output) hreset hcreate
  obtain ⟨data, hid, hfind⟩ : ∃ data, data.id = handle.id ∧
      (packFrom s s.output walking (w.skip s.output) fs).fs.find s.output true =
        .ok (handle.location, .file data) :=
    find_output_of_quiet quiet_walking trivial hreset hcreate
  have hfile := get?_of_find hfind
  rw [hfs] at hfile
  obtain ⟨hcontent, hrecords⟩ := file_of_close (addAll_output _ _ _ _ _ _)
    (holds_createNew (createNew_of_createOutput hcreate)).1 hfile hid
  refine ⟨_, data, _, hfind, hcontent, hrecords, ?_⟩
  intro record hrecord
  -- a member has the name of an entry that was started, and the run started what it took
  obtain ⟨last, -, hnames, hinit⟩ := addAll_names s walking _ (w.skip s.output)
    ⟨fs₁, handle, .ofLevel s.level⟩ (Report.ofOutput s.output replaced)
  have hname : record.member.name ∈ Archive.Writer.names
      (packedRun s s.output walking (w.skip s.output) fs₁ handle replaced).1.writer :=
    List.mem_map_of_mem hrecord
  unfold packedRun at hname
  rw [hnames] at hname
  have hstarted := hinit.subset hname
  rw [started_eq_taken, List.map_map] at hstarted
  obtain ⟨t, ht, htext⟩ := List.mem_map.1 hstarted
  obtain ⟨names, hne, hlegal, hform⟩ := relative_of_mem_taken hwalk ht
  exact ⟨names, _, hne, hlegal, hform, htext.symm⟩

/-- A text is read as the relative path with this text exactly if it is portable. What a text is
read as is always portable; the relative form of a path, and so the name of a member, is portable
exactly if no name of the path has a backslash behind the root. -/
theorem member_names_portable_iff (s : Settings) (fs : FileSystem) :
    (∀ text, (∃ r, RelativePath.parse text = .ok r ∧ r.text = text) ↔ Portable text) ∧
    (∀ text r, RelativePath.parse text = .ok r → Portable r.text) ∧
    (∀ p root r, RelativePath.fromRoot p root = .ok r →
      (Portable r.text ↔ p.FreeOfBackslash root)) ∧
    ∀ report, (packTree s fs).result = .ok report →
      ∃ l data records, (packTree s fs).fs.find s.output true = .ok (l, .file data) ∧
        data.content = Archive.image records ∧ data.records = some records ∧
        ∀ record ∈ records, ∃ names, names ≠ [] ∧ (∀ n ∈ names, isLegalName n = true) ∧
          (∃ relative, RelativePath.fromRoot (s.source.below names) s.root = .ok relative ∧
            record.member.name = relative.text) ∧
          (Portable record.member.name ↔ (s.source.below names).FreeOfBackslash s.root) := by
  refine ⟨?_, fun text r => RelativePath.portable_of_parse,
    fun p root r => RelativePath.portable_fromRoot_iff, ?_⟩
  · intro text
    constructor
    · rintro ⟨r, hparse, rfl⟩
      exact RelativePath.portable_of_parse hparse
    · exact RelativePath.parse_of_portable
  · intro report hok
    obtain ⟨l, data, records, hfind, hcontent, hread, hnames⟩ := names_of_packTree hok
    refine ⟨l, data, records, hfind, hcontent, hread, ?_⟩
    intro record hrecord
    obtain ⟨names, relative, hne, hlegal, hform, hname⟩ := hnames record hrecord
    refine ⟨names, hne, hlegal, ⟨relative, hform, hname⟩, ?_⟩
    rw [hname]
    exact RelativePath.portable_fromRoot_iff hform

/-- A directory with a file whose name has a backslash. -/
def backslashTree : FileSystem :=
  .ofEntries 1
    [(.ofString "pkg", .directory 0o755 [(.ofString "a\\b.txt", .ofBytes 0 [0x61])])]
    (by cbv)

/-- The same with the output, which is empty yet. -/
def backslashTreeCreated : FileSystem :=
  .ofEntries 2
    [(.ofString "o.zip", .ofBytes 1 []),
    (.ofString "pkg", .directory 0o755 [(.ofString "a\\b.txt", .ofBytes 0 [0x61])])]
    (by cbv)

def backslashRelative : RelativePath :=
  .ofName "a\\b.txt" rfl

def backslashEntry : Entry :=
  ⟨.ofString "/pkg/a\\b.txt", backslashRelative, 1⟩

def backslashRules : Rules :=
  ⟨interruptedSettings, Walk.plainExclusions, [interruptedSettings.output.normalize]⟩

theorem next_backslashTree :
    ∃ w, Walk.next backslashTreeCreated ⟨backslashRules, true, []⟩ = some (.ok backslashEntry, w) ∧
      ∀ fs, w.next fs = none := by
  have hbegin : backslashRules.begin backslashTreeCreated =
      .directory backslashRules.settings.source := by cbv
  have hlisting : backslashRules.listing backslashTreeCreated backslashRules.settings.source =
      [.ok ⟨.ofString "/pkg/a\\b.txt", .file, false⟩] := by cbv
  have hkeeps : backslashRules.keeps (.ofString "/pkg/a\\b.txt") = true := by cbv
  have hleaf : backslashRules.leaf backslashTreeCreated
      ⟨.ofString "/pkg/a\\b.txt", .file, false⟩ = .item (.ok backslashEntry) := by cbv
  have hvisit : backslashRules.visit backslashTreeCreated [backslashRules.settings.source]
      ⟨.ofString "/pkg/a\\b.txt", .file, false⟩ = .item (.ok backslashEntry) := by
    simp [Rules.visit, Rules.look, hkeeps, hleaf]
  refine ⟨_, Walk.next_of_first hbegin hlisting hvisit, ?_⟩
  intro fs
  rw [Walk.next_step, Walk.step]
  simp only [Bool.false_eq_true, if_false]
  rw [Walk.next_step, Walk.step]
  rfl

/-- A walk that yields one entry makes a run of one step, if its file can be added. -/
theorem packedRun_of_one_entry {w w' : Walk} {fs₁ : FileSystem} {handle : Handle} {entry : Entry}
    {read : Nat} (output : Path) (replaced : Bool) (hnext : w.next fs₁ = some (.ok entry, w'))
    (hlast : ∀ fs, w'.next fs = none)
    (hadded : (addFile s ⟨fs₁, handle, .ofLevel s.level⟩ entry).result = .ok read) :
    (packedRun s output walking w fs₁ handle replaced).1 =
        (addFile s ⟨fs₁, handle, .ofLevel s.level⟩ entry).run ∧
      ∃ report, (packedRun s output walking w fs₁ handle replaced).2.2 = .ok report := by
  have hlimit : (walking.limit fs₁ w : Nat) = w.weight fs₁ + 1 := rfl
  have hpull : walking.pull fs₁ w = (fs₁, some (.ok entry, w')) := congrArg (Prod.mk fs₁) hnext
  unfold packedRun
  rw [hlimit, addAll]
  simp only [hpull, hadded, addAll_of_exhausted hlast]
  exact ⟨trivial, _, rfl⟩

theorem not_portable_backslashRelative : ¬Portable backslashRelative.text := by
  rw [RelativePath.portable_text_iff]
  intro hfree
  exact hfree "a\\b.txt".toList (List.mem_singleton_self _) (by decide)

/-- The run over the directory succeeds, and the one member has the name as it is. -/
theorem packTree_backslashTree :
    ∃ report l data record,
      (packTree interruptedSettings backslashTree).result = .ok report ∧
      (packTree interruptedSettings backslashTree).fs.find interruptedSettings.output true =
        .ok (l, .file data) ∧
      data.records = some [record] ∧ record.member.name = backslashRelative.text := by
  have hvalid : interruptedSettings.validate backslashTree = .ok () := by cbv
  have hwalk : Walk.ofSettings interruptedSettings =
      .ok ⟨⟨interruptedSettings, Walk.plainExclusions, []⟩, true, []⟩ := by cbv
  have hreset : resetOutput backslashTree interruptedSettings.output =
      .ok (backslashTree, false) := by cbv
  have hcreate : createOutput backslashTree interruptedSettings.output =
      .ok (backslashTreeCreated, ⟨[.ofString "o.zip"], 1⟩) := by cbv
  obtain ⟨w, hnext, hlast⟩ := next_backslashTree
  have hadded : (addFile interruptedSettings ⟨backslashTreeCreated, ⟨[.ofString "o.zip"], 1⟩,
      .ofLevel interruptedSettings.level⟩ backslashEntry).result = .ok 1 := by cbv
  obtain ⟨hrun, report, hok⟩ := packedRun_of_one_entry interruptedSettings.output false hnext
    hlast hadded
  have hnames : (addFile interruptedSettings ⟨backslashTreeCreated, ⟨[.ofString "o.zip"], 1⟩,
      .ofLevel interruptedSettings.level⟩ backslashEntry).run.writer.names =
        [backslashRelative.text] :=
    names_of_added hadded
  rw [packTree_eq hvalid hwalk]
  obtain ⟨hfs, -, hresult⟩ := packFrom_created interruptedSettings walking
    ⟨backslashRules, true, []⟩ hreset hcreate
  obtain ⟨data, hid, hfind⟩ : ∃ data, data.id = 1 ∧
      (packFrom interruptedSettings interruptedSettings.output walking ⟨backslashRules, true, []⟩
        backslashTree).fs.find interruptedSettings.output true =
          .ok ([.ofString "o.zip"], .file data) :=
    find_output_of_quiet quiet_walking trivial hreset hcreate
  have hfile := get?_of_find hfind
  rw [hfs, hrun] at hfile
  have houtput := (addFile_frame interruptedSettings ⟨backslashTreeCreated,
    ⟨[.ofString "o.zip"], 1⟩, .ofLevel interruptedSettings.level⟩ backslashEntry).1
  obtain ⟨-, hrecords⟩ := file_of_close houtput (by simp) hfile hid
  obtain ⟨record, hcompleted, hname⟩ := List.map_eq_singleton_iff.1 hnames
  cases hpacked : (packFrom interruptedSettings interruptedSettings.output walking
      ⟨backslashRules, true, []⟩ backslashTree).result with
  | error f =>
    rw [(hresult f).1 hpacked] at hok
    cases hok
  | ok report' =>
    refine ⟨report', _, data, record, hpacked, hfind, ?_, hname⟩
    exact hrecords.trans (congrArg some hcompleted)

/-- In that run the path of the member has the backslash behind the root. -/
theorem member_names_portable_iff_backslash :
    ∃ report l data record,
      (packTree interruptedSettings backslashTree).result = .ok report ∧
      (packTree interruptedSettings backslashTree).fs.find interruptedSettings.output true =
        .ok (l, .file data) ∧
      data.records = some [record] ∧ ¬Portable record.member.name ∧
      ∃ names, ¬(interruptedSettings.source.below names).FreeOfBackslash
        interruptedSettings.root := by
  obtain ⟨report, l, data, record, hok, hfind, hrecords, hname⟩ := packTree_backslashTree
  obtain ⟨-, -, -, hrun⟩ := member_names_portable_iff interruptedSettings backslashTree
  obtain ⟨l', data', records, hfind', -, hrecords', hmembers⟩ := hrun report hok
  rw [hfind] at hfind'
  cases hfind'
  rw [hrecords] at hrecords'
  cases hrecords'
  obtain ⟨names, -, -, -, hiff⟩ := hmembers record (List.mem_singleton_self _)
  have hportable : ¬Portable record.member.name := hname ▸ not_portable_backslashRelative
  exact ⟨report, l, data, record, hok, hfind, hrecords, hportable, names, mt hiff.2 hportable⟩

/-- A file name with a backslash becomes the name of a member as it is, although a text with a
backslash is read as another relative path. -/
theorem backslash_name_is_member :
    ∃ r, RelativePath.fromRoot (.ofString "/pkg/a\\b.txt") (.ofString "/pkg") = .ok r ∧
      (¬∃ r', RelativePath.parse r.text = .ok r' ∧ r'.text = r.text) ∧
      ∃ report l data record,
        (packTree interruptedSettings backslashTree).result = .ok report ∧
        (packTree interruptedSettings backslashTree).fs.find interruptedSettings.output true =
          .ok (l, .file data) ∧
        data.records = some [record] ∧ record.member.name = r.text := by
  have hform : RelativePath.fromRoot (.ofString "/pkg/a\\b.txt") (.ofString "/pkg") =
      .ok backslashRelative := by cbv
  have hparse : ¬∃ r', RelativePath.parse backslashRelative.text = .ok r' ∧
      r'.text = backslashRelative.text := by
    rintro ⟨r', hparse, heq⟩
    exact not_portable_backslashRelative (heq ▸ RelativePath.portable_of_parse hparse)
  exact ⟨backslashRelative, hform, hparse, packTree_backslashTree⟩

end Pack

end TreeArchive
