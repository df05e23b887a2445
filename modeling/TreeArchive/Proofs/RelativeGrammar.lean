import TreeArchive.Proofs.Reopened

/-!
Texts that are read as relative paths. What a text is read as is told by its parts between
separators; the views of a relative path cut its own text again, from the front or from the back.
-/
namespace TreeArchive

namespace Text

universe u
variable {α : Type u}

theorem pieces_eq_splitOnP (isSep : α → Bool) (s : List α) : pieces isSep s = s.splitOnP isSep := by
  induction s with
  | nil => rfl
  | cons a rest ih =>
    rw [List.splitOnP_cons_eq_if_modifyHead, pieces, ih]
    split
    · rfl
    · cases hrest : rest.splitOnP isSep with
      | nil => exact absurd hrest (List.splitOnP_ne_nil isSep rest)
      | cons piece others => rfl

theorem join_eq_intercalate (sep : α) (parts : List (List α)) :
    join sep parts = [sep].intercalate parts := by
  induction parts with
  | nil => rfl
  | cons part rest ih =>
    cases rest with
    | nil => exact (List.append_nil part).symm
    | cons next others =>
      rw [join, ih, List.intercalate_cons_cons, List.append_assoc, List.singleton_append]
      exact List.cons_ne_nil next others

theorem join_concat (sep : α) {parts : List (List α)} (hne : parts ≠ []) (part : List α) :
    join sep (parts ++ [part]) = join sep parts ++ sep :: part := by
  induction parts with
  | nil => exact absurd rfl hne
  | cons first rest ih =>
    cases rest with
    | nil => rfl
    | cons next others =>
      change first ++ sep :: join sep ((next :: others) ++ [part]) = _
      rw [ih (List.cons_ne_nil next others), ← List.cons_append, ← List.append_assoc]
      rfl

theorem join_eq_nil_iff (sep : α) {parts : List (List α)} (h : [] ∉ parts) :
    join sep parts = [] ↔ parts = [] := by
  cases parts with
  | nil => simp [join]
  | cons first rest =>
    have hfirst : first ≠ [] := fun hnil => h (hnil ▸ List.mem_cons_self)
    cases rest with
    | nil => simpa [join] using hfirst
    | cons next others => simp [join]

/-- Cut from the back, a joined text gives its parts from the last to the first, each of them
reversed. -/
theorem splitOn_reverse_intercalate [BEq α] [LawfulBEq α] {sep : α} {parts : List (List α)}
    (hne : parts ≠ []) (h : ∀ part ∈ parts, sep ∉ part) :
    ([sep].intercalate parts).reverse.splitOn sep = (parts.map List.reverse).reverse := by
  have hone {part : List α} (hpart : sep ∉ part) : part.reverse.splitOn sep = [part.reverse] := by
    apply List.splitOn_eq_singleton
    rwa [List.mem_reverse]
  induction parts with
  | nil => exact absurd rfl hne
  | cons part rest ih =>
    rw [List.forall_mem_cons] at h
    cases rest with
    | nil =>
      rw [List.intercalate_singleton]
      exact hone h.1
    | cons next others =>
      have hback : ([sep].intercalate (part :: next :: others)).reverse =
          ([sep].intercalate (next :: others)).reverse ++ sep :: part.reverse := by
        rw [List.intercalate_cons_cons, List.append_assoc, List.singleton_append,
          List.reverse_append, List.reverse_cons, List.append_assoc, List.singleton_append]
      rw [hback, List.splitOn_append_cons_self, ih (List.cons_ne_nil next others) h.2, hone h.1,
        ← List.reverse_cons, ← List.map_cons]

end Text

open Text

namespace RelativePath

variable {text : String} {r : RelativePath}

/-- The texts between the separators `/` and `\`, empty ones included. -/
def between (text : String) : List (List Char) :=
  text.toList.splitOnP fun c => c == '/' || c == '\\'

/-- The parts that are left when empty ones and those that are `.` are dropped. -/
def parts (text : String) : List (List Char) :=
  (between text).filter fun part => part ≠ [] ∧ part ≠ ['.']

/-- A separator comes first. -/
def Rooted (text : String) : Prop :=
  text.toList.head? = some '/' ∨ text.toList.head? = some '\\'

instance : DecidablePred Rooted :=
  fun text => inferInstanceAs (Decidable (text.toList.head? = some '/' ∨ _))

/-- What a text is read as: a failure by the first rule that it breaks, or the parts of it. -/
inductive ReadAs (text : String) : Except Failure RelativePath → Prop where
  | absolute (rooted : Rooted text) : ReadAs text (.error (.invalidRelativePath text .absolute))
  | climbing (rooted : ¬Rooted text) (parent : ['.', '.'] ∈ between text) :
      ReadAs text (.error (.invalidRelativePath text .parentComponent))
  | nothing (rooted : ¬Rooted text) (parent : ['.', '.'] ∉ between text) (none : parts text = []) :
      ReadAs text (.error (.invalidRelativePath text .empty))
  | whole {r : RelativePath} (rooted : ¬Rooted text) (parent : ['.', '.'] ∉ between text)
      (components : r.components = parts text) : ReadAs text (.ok r)

theorem filter_pieces (text : String) :
    ((pieces isSeparator text.toList).filter fun part => !part.isEmpty && part != ['.']) =
      parts text := by
  rw [parts, between, pieces_eq_splitOnP]
  apply List.filter_congr
  intro part _
  rw [Bool.eq_iff_iff]
  simp

theorem contains_parent : (parts text).contains ['.', '.'] = true ↔ ['.', '.'] ∈ between text := by
  rw [List.contains_iff_mem, parts, List.mem_filter]
  simp

theorem rooted_iff : text.toList.head?.any isSeparator = true ↔ Rooted text := by
  unfold Rooted
  cases text.toList.head? with
  | none => simp
  | some c => simp [isSeparator]

/-- A part without separators that is neither empty nor made of dots alone is a component. -/
theorem isOrdinary_of_mem_parts (hparent : ['.', '.'] ∉ between text) {part : List Char}
    (h : part ∈ parts text) : isOrdinary part = true := by
  obtain ⟨hmem, hkeep⟩ := List.mem_filter.1 h
  obtain ⟨hnil, hdot⟩ := of_decide_eq_true hkeep
  have hdotDot : part ≠ ['.', '.'] := by
    rintro rfl
    exact hparent hmem
  have hslash : '/' ∉ part := by
    intro hslash
    rw [between, ← pieces_eq_splitOnP] at hmem
    exact absurd (isSep_of_mem_pieces hmem _ hslash) (by decide)
  exact isOrdinary_eq_true.2 ⟨hnil, hdot, hdotDot, hslash⟩

theorem readAs_parse (text : String) : ReadAs text (parse text) := by
  unfold parse
  dsimp only
  rw [filter_pieces]
  -- the rules are tried one after the other, each where those before it are kept
  split
  · rename_i hrooted
    exact .absolute (rooted_iff.1 hrooted)
  · rename_i hrooted
    have hrooted := mt rooted_iff.2 hrooted
    split
    · rename_i hparent
      exact .climbing hrooted (contains_parent.1 hparent)
    · rename_i hparent
      have hparent := mt contains_parent.2 hparent
      cases hread : ofComponents? (parts text) with
      | some r => exact .whole hrooted hparent (ofComponents?_eq_some.1 hread)
      | none =>
        apply ReadAs.nothing hrooted hparent
        by_contra hne
        have hall : ∀ c ∈ parts text, isOrdinary c = true :=
          fun c hc => isOrdinary_of_mem_parts hparent hc
        rw [ofComponents?, dif_pos ⟨hne, hall⟩] at hread
        cases hread

/-- The text that is gathered from parts: `/` goes before each but the first, and some parts are
passed over. -/
def gather (text : String) : List Char → List (List Char) → Except Failure (List Char)
  | gathered, [] => .ok gathered
  | gathered, part :: rest =>
    if part = [] ∨ part = ['.'] then gather text gathered rest
    else if part = ['.', '.'] then .error (.invalidRelativePath text .parentComponent)
    else gather text ((if gathered = [] then [] else gathered ++ ['/']) ++ part) rest

/-- Reads a text part by part. -/
def parseByParts (text : String) : Except Failure (List Char) :=
  if text.toList.head?.any isSeparator then .error (.invalidRelativePath text .absolute)
  else
    match gather text [] (pieces isSeparator text.toList) with
    | .ok [] => .error (.invalidRelativePath text .empty)
    | gathered => gathered

/-- What has been gathered are the parts so far that are kept. -/
theorem gather_join {kept : List (List Char)} (hkept : [] ∉ kept) (parts : List (List Char)) :
    gather text (join '/' kept) parts =
      if ['.', '.'] ∈ parts then .error (.invalidRelativePath text .parentComponent)
      else .ok (join '/' (kept ++ parts.filter fun part => part ≠ [] ∧ part ≠ ['.'])) := by
  induction parts generalizing kept with
  | nil => simp [gather]
  | cons part rest ih =>
    rw [gather]
    by_cases hskip : part = [] ∨ part = ['.']
    · have hparent : ['.', '.'] ≠ part := by
        rintro rfl
        simp at hskip
      have hdrop : ¬(part ≠ [] ∧ part ≠ ['.']) := by tauto
      rw [if_pos hskip, ih hkept, List.filter_cons_of_neg (by simpa using hdrop)]
      simp [hparent]
    · rw [if_neg hskip]
      by_cases hparent : part = ['.', '.']
      · simp [hparent]
      · have hkeep : part ≠ [] ∧ part ≠ ['.'] := by tauto
        have hnext : (if join '/' kept = [] then [] else join '/' kept ++ ['/']) ++ part =
            join '/' (kept ++ [part]) := by
          simp only [join_eq_nil_iff '/' hkept]
          split
          · rename_i hnone
            rw [hnone]
            rfl
          · rename_i hsome
            rw [join_concat '/' hsome, List.append_assoc, List.singleton_append]
        have hgrown : [] ∉ kept ++ [part] := by
          simpa using ⟨hkept, hkeep.1⟩
        rw [if_neg hparent, hnext, ih hgrown, List.filter_cons_of_pos (by simpa using hkeep),
          List.append_assoc, List.singleton_append]
        simp [Ne.symm hparent]

/-- Read part by part, a text gives the same failure or the text of the same path. -/
theorem parseByParts_eq (text : String) : parseByParts text = (parse text).map chars := by
  have hbetween : pieces isSeparator text.toList = between text := pieces_eq_splitOnP _ _
  have hgather : gather text [] (between text) = if ['.', '.'] ∈ between text then
      .error (.invalidRelativePath text .parentComponent) else .ok (join '/' (parts text)) :=
    gather_join List.not_mem_nil (between text)
  have hread := readAs_parse text
  unfold parseByParts
  rw [hbetween, hgather]
  generalize parse text = result at hread ⊢
  cases hread with
  | absolute rooted =>
    rw [if_pos (rooted_iff.2 rooted)]
    rfl
  | climbing rooted parent =>
    rw [if_neg (mt rooted_iff.1 rooted), if_pos parent]
    rfl
  | nothing rooted parent none =>
    rw [if_neg (mt rooted_iff.1 rooted), if_neg parent, none]
    rfl
  | @whole r rooted parent components =>
    have hsome : join '/' r.components ≠ [] := by
      rw [Ne, join_eq_nil_iff]
      · exact r.components_ne_nil
      · exact fun hnil => absurd (r.ordinary [] hnil) (by decide)
    obtain ⟨c, rest, hchars⟩ := List.exists_cons_of_ne_nil hsome
    rw [if_neg (mt rooted_iff.1 rooted), if_neg parent, ← components, hchars]
    exact congrArg Except.ok hchars.symm

/-- No text is read in two ways. -/
theorem ReadAs.unique {result result' : Except Failure RelativePath} (h : ReadAs text result)
    (h' : ReadAs text result') : result = result' := by
  cases h with
  | absolute rooted =>
    cases h' with
    | absolute => rfl
    | climbing rooted' => exact absurd rooted rooted'
    | nothing rooted' => exact absurd rooted rooted'
    | whole rooted' => exact absurd rooted rooted'
  | climbing rooted parent =>
    cases h' with
    | absolute rooted' => exact absurd rooted' rooted
    | climbing => rfl
    | nothing _ parent' => exact absurd parent parent'
    | whole _ parent' => exact absurd parent parent'
  | nothing rooted parent none =>
    cases h' with
    | absolute rooted' => exact absurd rooted' rooted
    | climbing _ parent' => exact absurd parent' parent
    | nothing => rfl
    | @whole r _ _ components => exact absurd (components.trans none) r.components_ne_nil
  | @whole r rooted parent components =>
    cases h' with
    | absolute rooted' => exact absurd rooted' rooted
    | climbing _ parent' => exact absurd parent' parent
    | nothing _ _ none => exact absurd (components.trans none) r.components_ne_nil
    | whole _ _ components' => exact congrArg _ (ext_components (components.trans components'.symm))

/-- The views of a relative path, each as it is read off the text. -/
structure ReadsOwnText (r : RelativePath) : Prop where
  components : r.text.toList.splitOn '/' = r.components
  /-- Cutting from the back gives the components from the last to the first. -/
  backwards : (r.text.toList.reverse.splitOn '/').map List.reverse = r.components.reverse
  depth : r.depth = (r.text.toList.splitOn '/').length
  fileName : (r.text.toList.reverse.splitOn '/').head? = some r.fileName.reverse
  toPath : r.toPath.components = r.components.map fun c => .normal (Utf8.encode c)

theorem slash_not_mem {c : List Char} (h : c ∈ r.components) : '/' ∉ c :=
  (isOrdinary_eq_true.1 (r.ordinary c h)).2.2.2

theorem components_toPath (r : RelativePath) :
    r.toPath.components = r.components.map fun c => .normal (Utf8.encode c) := by
  have hordinary : ∀ name ∈ r.components.map Utf8.encode, Path.Ordinary name :=
    fun name => ordinary_encode
  have hnone : (r.components.map Utf8.encode).filter (!Path.isBlank ·) =
      r.components.map Utf8.encode := by
    rw [List.filter_eq_self]
    intro name hname
    rw [(hordinary name hname).nonblank, Bool.not_false]
  rw [toPath, Path.ofChars, chars, Utf8.encode_join, Path.components_join, hnone, List.map_map]
  · apply List.map_congr_left
    intro c hc
    exact (hordinary _ (List.mem_map_of_mem hc)).ofName
  · exact fun name hname => (hordinary name hname).slash_not_mem
  · exact fun name hname => (hordinary name (List.mem_of_mem_head? hname)).nonblank

theorem readsOwnText (r : RelativePath) : r.ReadsOwnText := by
  have hslash : ∀ c ∈ r.components, '/' ∉ c := fun c hc => slash_not_mem hc
  have htext : r.text.toList = ['/'].intercalate r.components := by
    rw [toList_text, join_eq_intercalate]
  have hfront : r.text.toList.splitOn '/' = r.components := by
    rw [htext]
    exact List.splitOn_intercalate '/' hslash r.components_ne_nil
  have hback : r.text.toList.reverse.splitOn '/' = (r.components.map List.reverse).reverse := by
    rw [htext]
    exact splitOn_reverse_intercalate r.components_ne_nil hslash
  refine ⟨hfront, ?_, ?_, ?_, r.components_toPath⟩
  · rw [hback, List.map_reverse, List.map_map, List.reverse_involutive.comp_self, List.map_id]
  · rw [hfront, depth]
  · rw [hback, List.head?_reverse, List.getLast?_map, fileName,
      List.getLast?_eq_some_getLast r.components_ne_nil, Option.map_some]

/-- A text that is read gives the parts that are left of it, and its own text is read the same. -/
theorem parse_text (h : parse text = .ok r) : r.components = parts text ∧
    r.text = String.ofList (['/'].intercalate (parts text)) ∧ parse r.text = .ok r := by
  have hread := readAs_parse text
  rw [h] at hread
  cases hread with
  | whole rooted parent components =>
    refine ⟨components, ?_, ?_⟩
    · rw [← components, ← join_eq_intercalate]
      rfl
    · obtain ⟨r', hparse, htext⟩ := parse_of_portable (portable_of_parse h)
      rw [hparse, eq_of_text_eq htext]

/-- A text is read as a relative path by its parts alone. It fails if a separator comes first, if
some part is `..`, or if no part is left, and of these the first is told. Otherwise the parts are
the components; joined by `/`, they are read as they were, and texts with other parts are read as
other paths. Each view of a relative path is the one that its text gives. -/
theorem parse_follows_grammar (text : String) :
    (∀ result, parse text = result ↔ ReadAs text result) ∧
    (∀ r, parse text = .ok r → r.components = parts text ∧ r.components ≠ [] ∧
      r.text = String.ofList (['/'].intercalate (parts text)) ∧ parse r.text = .ok r ∧
      ∀ text' r', parse text' = .ok r' → (r = r' ↔ parts text = parts text') ∧
        (r.text = r'.text ↔ parts text = parts text')) ∧
    ∀ r : RelativePath, r.ReadsOwnText := by
  refine ⟨?_, ?_, readsOwnText⟩
  · intro result
    constructor
    · rintro rfl
      exact readAs_parse text
    · exact fun h => (readAs_parse text).unique h
  · intro r h
    obtain ⟨hparts, htext, hagain⟩ := parse_text h
    refine ⟨hparts, r.components_ne_nil, htext, hagain, ?_⟩
    intro text' r' h'
    obtain ⟨hparts', -, -⟩ := parse_text h'
    have hsame : r = r' ↔ parts text = parts text' := by
      rw [← hparts, ← hparts']
      exact ⟨congrArg components, ext_components⟩
    exact ⟨hsame, Iff.trans ⟨eq_of_text_eq, congrArg _⟩ hsame⟩

/-- Both separators count, and what is empty or `.` is dropped. -/
theorem parse_follows_grammar_mixed : ∃ r, parse "a\\.//b/" = .ok r ∧
    r.components = [['a'], ['b']] ∧ r.text = "a/b" ∧ parse "a/b" = .ok r ∧
    r.toPath.components = [.normal [0x61], .normal [0x62]] := by
  obtain ⟨hread, hok, hviews⟩ := parse_follows_grammar "a\\.//b/"
  have hmixed : parse "a\\.//b/" = .ok ⟨[['a'], ['b']], by decide, by decide⟩ :=
    (hread _).2 (.whole (by decide) (by decide) (by decide))
  obtain ⟨hcomponents, -, htext, hagain, -⟩ := hok _ hmixed
  have hparts : parts "a\\.//b/" = [['a'], ['b']] := by decide
  have hjoined : String.ofList (['/'].intercalate [['a'], ['b']]) = "a/b" := by decide
  rw [hparts, hjoined] at htext
  rw [htext] at hagain
  exact ⟨_, hmixed, hcomponents.trans hparts, htext, hagain, (hviews _).toPath⟩

end RelativePath

end TreeArchive
