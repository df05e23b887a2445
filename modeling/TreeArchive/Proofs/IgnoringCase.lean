import Mathlib
import TreeArchive.Proofs.PatternMatch
import TreeArchive.Proofs.SegmentGrammar

/-!
Patterns that ignore case. Folding the text of a component folds its tokens: no `*`, `?` or set comes
or goes, but a literal may become two, and a set is read again from the folded text. What the tokens
match they go on to match, if each of them takes the lower case of what it took.
-/
namespace TreeArchive

open Text

namespace Text

variable {before before' after after' s t : List Char} {c d : Char}

/-- The lower cases that a character can have, by where it stands. -/
def lowerForms (c : Char) : List (List Char) :=
  if c = capitalSigma then [['\u03C2'], ['\u03C3']] else [lowerChar [] c []]

theorem lowerChar_of_ne_sigma (h : c ≠ capitalSigma) (before before' after after' : List Char) :
    lowerChar before c after = lowerChar before' c after' := by
  rw [lowerChar, lowerChar, if_neg h, if_neg h]

theorem lowerChar_mem_lowerForms (before : List Char) (c : Char) (after : List Char) :
    lowerChar before c after ∈ lowerForms c := by
  by_cases h : c = capitalSigma
  · rw [lowerForms, if_pos h, lowerChar, if_pos h]
    split <;> simp
  · rw [lowerForms, if_neg h, List.mem_singleton]
    exact lowerChar_of_ne_sigma h _ _ _ _

/-- Only the capital I with a dot has two characters for its lower case. -/
theorem length_lowerChar : (lowerChar before c after).length = 1 ↔ c ≠ '\u0130' := by
  unfold lowerChar
  split_ifs with hsigma hfinal hdotted hascii
  · simp [hsigma, capitalSigma]
  · simp [hsigma, capitalSigma]
  · simp [hdotted]
  · simp [hdotted]
  · simp [hdotted]

/-- The characters that the grammar of patterns looks for. -/
theorem halts_of_sign (h : c ∈ ['*', '?', '[', ']', '!']) : Halts c := by
  simp only [List.mem_cons, List.not_mem_nil, or_false] at h
  rcases h with rfl | rfl | rfl | rfl | rfl <;>
    exact ⟨by decide +kernel, by decide +kernel, by decide, fun _ _ => rfl⟩

theorem lowerFrom_cons_of_halts (h : Halts c) (before s : List Char) :
    lowerFrom before (c :: s) = c :: lowercase s := by
  rw [lowerFrom, h.kept, List.singleton_append]
  exact congrArg (c :: ·) (lowerFrom_behind h [] before s)

theorem facesCased_cons (c : Char) (s : List Char) :
    facesCased (c :: s) = if isSkipped c then facesCased s else isCased c := by
  unfold facesCased
  by_cases h : isSkipped c = true
  · rw [List.dropWhile_cons_of_pos h, if_pos h]
  · rw [List.dropWhile_cons_of_neg h, if_neg h]
    rfl

theorem facesCased_of_halts (h : Halts c) (s : List Char) : facesCased (c :: s) = false := by
  rw [facesCased_cons, h.not_skipped, h.not_cased]
  rfl

theorem mem_lowerFrom_of_halts (hd : Halts d) (h : d ∈ lowerFrom before s) : d ∈ s := by
  have hletters := hd.before_letters
  exact (mem_lowerFrom h).resolve_right (by omega)

theorem head?_lowerFrom_of_halts (hd : Halts d) (h : (lowerFrom before s).head? = some d) :
    s.head? = some d := by
  cases s with
  | nil => exact h
  | cons c rest =>
    have hmem : d ∈ lowerChar before c rest := by
      obtain ⟨e, more, hform⟩ := List.exists_cons_of_ne_nil (lowerChar_ne_nil before c rest)
      rw [lowerFrom, hform, List.cons_append, List.head?_cons] at h
      rw [hform, Option.some.inj h]
      exact List.mem_cons_self
    have hletters := hd.before_letters
    rw [(mem_lowerChar hmem).resolve_right (by omega)]
    rfl

theorem mem_tail_lowerFrom_of_halts (hd : Halts d) (h : d ∈ (lowerFrom before s).tail) :
    d ∈ s.tail := by
  cases s with
  | nil => cases h
  | cons c rest =>
    rw [lowerFrom] at h
    by_cases hc : c = d
    · rw [hc, hd.kept] at h
      exact mem_lowerFrom_of_halts hd h
    · rcases List.mem_append.1 (List.mem_of_mem_tail h) with hmem | hmem
      · have hletters := hd.before_letters
        exact absurd ((mem_lowerChar hmem).resolve_right (by omega)) (Ne.symm hc)
      · exact mem_lowerFrom_of_halts hd hmem

end Text

namespace Glob

variable {before before' s text : List Char} {c : Char} {token : Token} {tokens : List Token}

/-- The characters that tokens start with, up to the first that is no literal. -/
def literalText : List Token → List Char
  | .literal l :: rest => l :: literalText rest
  | _ => []

/-- The tokens of the folded text, behind the literals `before`, nearest first. -/
def lowerTokens (before : List Char) : List Token → List Token
  | [] => []
  | .literal l :: rest =>
    (lowerChar before l (literalText rest)).map .literal ++ lowerTokens (l :: before) rest
  | .anyChar :: rest => .anyChar :: lowerTokens [] rest
  | .anyRun :: rest => .anyRun :: lowerTokens [] rest
  | .charSet negated items :: rest =>
    .charSet negated (members (lowercase (items.flatMap SetItem.spelling))) :: lowerTokens [] rest

theorem lowercase_mark (negated : Bool) (s : List Char) :
    lowercase (mark negated ++ s) = mark negated ++ lowercase s := by
  cases negated with
  | true => exact lowerFrom_cons_of_halts (halts_of_sign (by simp)) [] s
  | false => rfl

theorem facesCased_literalText (s : List Char) :
    facesCased (literalText (compile s)) = facesCased s := by
  induction s using compile_induct with
  | nil => rw [compile]; rfl
  | star s ih =>
    have hstar : literalText (consToken .anyRun (compile s)) = [] := by
      unfold consToken
      split <;> rfl
    rw [compile_star, hstar, facesCased_of_halts (halts_of_sign (by simp))]
    rfl
  | question s ih =>
    rw [compile_question, facesCased_of_halts (halts_of_sign (by simp))]
    rfl
  | itself c s hstar hquestion hbracket ih =>
    rw [compile_itself hstar hquestion hbracket, literalText, facesCased_cons, facesCased_cons, ih]
  | set negated c inner tail hmark hinner ih =>
    rw [compile_set hmark hinner, facesCased_of_halts (halts_of_sign (by simp))]
    rfl
  | unclosed negated s hmark hs ih =>
    rw [compile_unclosed hmark hs, literalText, facesCased_of_halts (halts_of_sign (by simp)),
      facesCased_of_halts (halts_of_sign (by simp))]

theorem compile_append_of_itself (h : ∀ c ∈ s, c ≠ '*' ∧ c ≠ '?' ∧ c ≠ '[') (text : List Char) :
    compile (s ++ text) = s.map .literal ++ compile text := by
  induction s with
  | nil => rfl
  | cons c rest ih =>
    obtain ⟨⟨hstar, hquestion, hbracket⟩, hrest⟩ := List.forall_mem_cons.1 h
    rw [List.cons_append, compile_itself hstar hquestion hbracket, ih hrest, List.map_cons,
      List.cons_append]

theorem consToken_lowerTokens (before : List Char) (tokens : List Token) :
    consToken .anyRun (lowerTokens [] tokens) = lowerTokens before (consToken .anyRun tokens) := by
  cases tokens with
  | nil => rfl
  | cons token rest =>
    cases token with
    | literal l =>
      obtain ⟨d, more, hform⟩ :=
        List.exists_cons_of_ne_nil (lowerChar_ne_nil [] l (literalText rest))
      simp [consToken, lowerTokens, hform]
    | anyChar => rfl
    | anyRun => rfl
    | charSet negated items => rfl

/-- Folding the text of a component folds its tokens. -/
theorem compile_lowerFrom (before s : List Char) :
    compile (lowerFrom before s) = lowerTokens before (compile s) := by
  induction s using compile_induct generalizing before with
  | nil => rw [lowerFrom, compile, lowerTokens]
  | star s ih =>
    rw [lowerFrom_cons_of_halts (halts_of_sign (by simp)), compile_star, compile_star, lowercase, ih,
      consToken_lowerTokens]
  | question s ih =>
    rw [lowerFrom_cons_of_halts (halts_of_sign (by simp)), compile_question, compile_question,
      lowercase, ih, lowerTokens]
  | itself c s hstar hquestion hbracket ih =>
    -- no letter becomes a sign
    have hform : ∀ d ∈ lowerChar before c s, d ≠ '*' ∧ d ≠ '?' ∧ d ≠ '[' := by
      intro d hd
      rcases mem_lowerChar hd with rfl | hletter
      · exact ⟨hstar, hquestion, hbracket⟩
      · refine ⟨?_, ?_, ?_⟩ <;>
        · rintro rfl
          exact absurd hletter (by decide)
    rw [lowerFrom, compile_append_of_itself hform, ih, compile_itself hstar hquestion hbracket,
      lowerTokens, lowerChar_congr rfl (facesCased_literalText s)]
  | set negated c inner tail hmark hinner ih =>
    -- the brackets stand where they stood, and between them no other comes up
    obtain ⟨d, more, hmembers⟩ : ∃ d more, lowercase (c :: inner) = d :: more :=
      List.exists_cons_of_ne_nil (mt lowerFrom_eq_nil.1 (by simp))
    have hmark' : negated = false → d ≠ '!' := by
      rintro hnegated rfl
      have hhead := head?_lowerFrom_of_halts (halts_of_sign (by simp))
        (congrArg List.head? hmembers)
      exact hmark hnegated (Option.some.inj hhead)
    have hmore : ']' ∉ more := by
      intro hmem
      have htail : ']' ∈ (lowercase (c :: inner)).tail := by rwa [hmembers]
      exact hinner (mem_tail_lowerFrom_of_halts (halts_of_sign (by simp)) htail)
    rw [lowerFrom_cons_of_halts (halts_of_sign (by simp)), lowercase_mark,
      lowercase_append (halts_of_sign (by simp)), hmembers, compile_set hmark' hmore,
      compile_set hmark hinner, lowercase, ih, lowerTokens, flatMap_spelling_members, hmembers]
  | unclosed negated s hmark hs ih =>
    have hmark' : negated = false → (lowercase s).head? ≠ some '!' := fun hnegated hhead =>
      hmark hnegated (head?_lowerFrom_of_halts (halts_of_sign (by simp)) hhead)
    have hs' : ']' ∉ (lowercase s).tail := fun hmem =>
      hs (mem_tail_lowerFrom_of_halts (halts_of_sign (by simp)) hmem)
    have hbracket : Halts '[' := halts_of_sign (by simp)
    have hrest : compile (lowercase (mark negated ++ s)) =
        lowerTokens ('[' :: before) (compile (mark negated ++ s)) := by
      rw [← ih ('[' :: before), lowercase]
      exact congrArg compile (lowerFrom_behind hbracket [] before _).symm
    rw [lowerFrom_cons_of_halts hbracket, lowercase_mark, compile_unclosed hmark' hs',
      ← lowercase_mark, hrest, compile_unclosed hmark hs, lowerTokens, hbracket.kept]
    rfl

/-- Whatever lower case the character has, the token that the folded text has in the place of this
one takes it. -/
def Token.Keeps : Token → Char → Prop
  | .literal l, _ => l ≠ capitalSigma
  | .anyChar, c => c ≠ '\u0130'
  | .anyRun, _ => True
  | .charSet negated items, c => c ≠ '\u0130' ∧ ∀ form ∈ lowerForms c, ∀ d ∈ form,
      (charSet negated (members (lowercase (items.flatMap SetItem.spelling)))).accepts d = true

/-- Folding keeps a match of the tokens with the text: there is no sign among the tokens, or every
token keeps the characters that it takes. -/
def KeepsMatch (tokens : List Token) (text : List Char) : Prop :=
  (∃ s : List Char, tokens = s.map .literal) ∨
    ∀ token ∈ tokens, ∀ c ∈ text, token.accepts c = true → token.Keeps c

theorem fits_map_literal {s : List Char} : Fits (s.map .literal ++ tokens) text ↔
    ∃ rest, text = s ++ rest ∧ Fits tokens rest := by
  induction s generalizing text with
  | nil => simp
  | cons c s ih =>
    cases text with
    | nil => simp [not_fits_one_nil]
    | cons d text =>
      rw [List.map_cons, List.cons_append, fits_one_cons (by simp), ih]
      constructor
      · rintro ⟨haccepts, rest, rfl, hrest⟩
        obtain rfl : c = d := by simpa [Token.accepts] using haccepts
        exact ⟨rest, rfl, hrest⟩
      · rintro ⟨rest, heq, hrest⟩
        obtain ⟨rfl, rfl⟩ := List.cons.inj heq
        exact ⟨by simp [Token.accepts], rest, rfl, hrest⟩

theorem fits_literals {s : List Char} : Fits (s.map .literal) text ↔ text = s := by
  have h := @fits_map_literal text [] s
  simpa [fits_nil] using h

theorem literalText_map_literal (s : List Char) : literalText (s.map .literal) = s := by
  induction s with
  | nil => rfl
  | cons c rest ih => rw [List.map_cons, literalText, ih]

theorem lowerTokens_map_literal (before s : List Char) :
    lowerTokens before (s.map .literal) = (lowerFrom before s).map .literal := by
  induction s generalizing before with
  | nil => rfl
  | cons c rest ih =>
    rw [List.map_cons, lowerTokens, literalText_map_literal, ih, lowerFrom, List.map_append]

/-- What a `*` takes may change the lower case of the rest, but not what stands before it. -/
theorem exists_lowerFrom_append (before s t : List Char) :
    ∃ u, lowerFrom before (s ++ t) = u ++ lowerFrom (s.reverse ++ before) t := by
  induction s generalizing before with
  | nil => exact ⟨[], rfl⟩
  | cons c rest ih =>
    obtain ⟨u, hu⟩ := ih (c :: before)
    refine ⟨lowerChar before c (rest ++ t) ++ u, ?_⟩
    rw [List.cons_append, lowerFrom, hu, List.append_assoc, List.reverse_cons, List.append_assoc,
      List.singleton_append]

theorem fits_lowerTokens (hfits : Fits tokens text)
    (hkeeps : ∀ token ∈ tokens, ∀ c ∈ text, token.accepts c = true → token.Keeps c)
    (before before' : List Char) :
    Fits (lowerTokens before tokens) (lowerFrom before' text) := by
  induction tokens generalizing text before before' with
  | nil =>
    rw [fits_nil] at hfits
    rw [hfits]
    exact fits_nil.2 rfl
  | cons token rest ih =>
    obtain ⟨hfirst, hrest⟩ := List.forall_mem_cons.1 hkeeps
    by_cases hrun : token = .anyRun
    · -- whatever has become of the characters that the `*` took, it takes them again
      subst hrun
      obtain ⟨k, hdrop⟩ := fits_anyRun.1 hfits
      obtain ⟨u, hu⟩ := exists_lowerFrom_append before' (text.take k) (text.drop k)
      rw [List.take_append_drop] at hu
      rw [lowerTokens, fits_anyRun]
      refine ⟨u.length, ?_⟩
      rw [hu, List.drop_left]
      exact ih hdrop (fun token htoken c hc => hrest token htoken c (List.mem_of_mem_drop hc)) _ _
    · cases text with
      | nil => exact absurd hfits (not_fits_one_nil hrun)
      | cons c text =>
        obtain ⟨haccepts, hbehind⟩ := (fits_one_cons hrun).1 hfits
        have hkept := hfirst c List.mem_cons_self haccepts
        have hmore := ih hbehind fun token htoken d hd =>
          hrest token htoken d (List.mem_cons_of_mem _ hd)
        rw [lowerFrom]
        cases token with
        | literal l =>
          obtain rfl : l = c := by simpa [Token.accepts] using haccepts
          rw [lowerTokens, lowerChar_of_ne_sigma hkept before before' _ text, fits_map_literal]
          exact ⟨_, rfl, hmore _ _⟩
        | anyChar =>
          obtain ⟨d, hd⟩ := List.length_eq_one_iff.1 (length_lowerChar.2 hkept)
          rw [hd, lowerTokens, List.singleton_append, fits_one_cons (by simp)]
          exact ⟨rfl, hmore _ _⟩
        | anyRun => exact absurd rfl hrun
        | charSet negated items =>
          obtain ⟨hdotted, hall⟩ := hkept
          have hset := hall _ (lowerChar_mem_lowerForms before' c text)
          obtain ⟨d, hd⟩ := List.length_eq_one_iff.1 (length_lowerChar.2 hdotted)
          rw [hd, List.forall_mem_singleton] at hset
          rw [hd, lowerTokens, List.singleton_append, fits_one_cons (by simp)]
          exact ⟨hset, hmore _ _⟩

theorem KeepsMatch.fits (hkeeps : KeepsMatch tokens text) (hfits : Fits tokens text) :
    Fits (lowerTokens [] tokens) (lowercase text) := by
  rcases hkeeps with ⟨s, rfl⟩ | hkeeps
  · -- the text is the pattern's, so both are folded to the same, sigmas included
    rw [fits_literals] at hfits
    rw [hfits, lowerTokens_map_literal, fits_literals]
    rfl
  · exact fits_lowerTokens hfits hkeeps [] []

theorem fits_one (h : token ≠ .anyRun) :
    Fits [token] text ↔ text.length = 1 ∧ ∀ d ∈ text, token.accepts d = true := by
  cases text with
  | nil => simp [not_fits_one_nil h]
  | cons d rest =>
    rw [fits_one_cons h, fits_nil, and_comm]
    constructor
    · rintro ⟨rfl, haccepts⟩
      exact ⟨rfl, by simpa using haccepts⟩
    · rintro ⟨hlength, haccepts⟩
      exact ⟨by simpa using hlength, haccepts d List.mem_cons_self⟩

/-- For one token and one character nothing less would do. -/
theorem keepsMatch_iff (haccepts : token.accepts c = true) (hsigma : c ≠ capitalSigma) :
    KeepsMatch [token] [c] ↔ Fits (lowerTokens [] [token]) (lowercase [c]) := by
  constructor
  · intro hkeeps
    refine hkeeps.fits ((fits_one ?_).2 ⟨rfl, by simpa using haccepts⟩)
    rintro rfl
    cases haccepts
  · intro hfits
    have hlower : lowercase [c] = lowerChar [] c [] := by
      rw [lowercase, lowerFrom, lowerFrom, List.append_nil]
    have hkeeps (h : token.Keeps c) : KeepsMatch [token] [c] := by
      right
      simpa using fun _ => h
    rw [hlower] at hfits
    cases token with
    | literal l => exact .inl ⟨[l], rfl⟩
    | anyChar => exact hkeeps (length_lowerChar.1 ((fits_one (by simp)).1 hfits).1)
    | anyRun => cases haccepts
    | charSet negated items =>
      obtain ⟨hlength, hset⟩ := (fits_one (by simp)).1 hfits
      refine hkeeps ⟨length_lowerChar.1 hlength, ?_⟩
      rw [lowerForms, if_neg hsigma, List.forall_mem_singleton]
      exact hset

/-- The dotted capital I has a second character when it is folded. -/
example : matchesAll (compile (lowercase ['?'])) (lowercase ['İ']) = false := by cbv

/-- A sigma behind a letter is a final one, and behind a `*` it is not. -/
example : lowerTokens [] [.anyRun, .literal 'Σ'] = [.anyRun, .literal 'σ'] ∧
    lowercase ['Α', 'Σ'] = ['α', 'ς'] := by decide +kernel

end Glob

namespace Pattern

variable {text : String} {p : Pattern} {r : RelativePath}

theorem compile_eq_ok {caseSensitive : Bool} : compile text caseSensitive = .ok p ↔
    parts text.toList ≠ [] ∧ p = ⟨text, text.toList.head?.any RelativePath.isSeparator,
      caseSensitive, (parts (fold caseSensitive text.toList)).map Glob.compile⟩ := by
  rcases compile_cases text caseSensitive with ⟨hparts, fault, herror⟩ | ⟨hparts, hok⟩
  · simp [hparts, herror]
  · simp [hparts, hok, eq_comm]

/-- A pattern that ignores case has the folded tokens of the one that does not. -/
theorem compile_ignoring_case (hp : compile text true = .ok p) : ∃ q, compile text false = .ok q ∧
    q.anchored = p.anchored ∧ q.segments = p.segments.map (Glob.lowerTokens []) := by
  obtain ⟨hparts, rfl⟩ := compile_eq_ok.1 hp
  refine ⟨_, compile_eq_ok.2 ⟨hparts, rfl⟩, rfl, ?_⟩
  rw [parts_fold, List.map_map, List.map_map]
  exact List.map_congr_left fun part _ => Glob.compile_lowerFrom [] part

theorem caseSensitive_of_compile {caseSensitive : Bool} (hp : compile text caseSensitive = .ok p) :
    p.caseSensitive = caseSensitive := by
  obtain ⟨-, rfl⟩ := compile_eq_ok.1 hp
  rfl

theorem admits_iff_fits {caseSensitive : Bool} (hp : compile text caseSensitive = .ok p) :
    p.admits r = true ↔
      (if p.anchored then p.segments.length = r.depth else p.segments.length ≤ r.depth) ∧
        List.Forall₂ (fun segment component => Glob.Fits segment (fold caseSensitive component))
          p.segments (p.lastComponents r) := by
  simp only [admits_iff, caseSensitive_of_compile hp, Glob.matchesAll_iff]

/-- Where case is ignored, the folded tokens of a pattern cut the folded components of a path. So
the pattern goes on to match a path if no segment that has a sign in it loses a character by folding:
`?` loses none but the capital I with a dot, which has two characters for its lower case, a letter
none but the capital sigma, which has two lower cases, and a set those whose lower case is not in the
set of the folded text. -/
theorem ignoring_case_keeps_match (hp : compile text true = .ok p) :
    ∃ q, compile text false = .ok q ∧
      (∀ r, q.admits r = true ↔
        (if p.anchored then p.segments.length = r.depth else p.segments.length ≤ r.depth) ∧
          List.Forall₂ (fun segment component =>
            Glob.Fits (Glob.lowerTokens [] segment) (lowercase component))
            p.segments (p.lastComponents r)) ∧
      ∀ r, p.admits r = true → List.Forall₂ Glob.KeepsMatch p.segments (p.lastComponents r) →
        q.admits r = true := by
  obtain ⟨q, hq, hanchored, hsegments⟩ := compile_ignoring_case hp
  have hlength : q.segments.length = p.segments.length := by rw [hsegments, List.length_map]
  have hlast (r : RelativePath) : q.lastComponents r = p.lastComponents r := by
    rw [lastComponents, hlength, lastComponents]
  have hfolded (r : RelativePath) : q.admits r = true ↔
      (if p.anchored then p.segments.length = r.depth else p.segments.length ≤ r.depth) ∧
        List.Forall₂ (fun segment component =>
          Glob.Fits (Glob.lowerTokens [] segment) (lowercase component))
          p.segments (p.lastComponents r) := by
    rw [admits_iff_fits hq, hanchored, hlength, hlast, hsegments, List.forall₂_map_left_iff]
    rfl
  refine ⟨q, hq, hfolded, ?_⟩
  intro r hadmits hkeeps
  obtain ⟨hdepth, hfits⟩ := (admits_iff_fits hp).1 hadmits
  rw [List.forall₂_iff_zip] at hfits
  refine (hfolded r).2 ⟨hdepth, List.forall₂_iff_zip.2 ⟨hfits.1, ?_⟩⟩
  intro segment component hmem
  have hkept : Glob.KeepsMatch segment component := (List.forall₂_iff_zip.1 hkeeps).2 hmem
  exact hkept.fits (hfits.2 hmem)

/-- A path below which a pattern with every sign takes a letter that is no ASCII. -/
def accentedPath : RelativePath where
  components := [['G'], ['É', 'K', 's', 'p']]
  components_ne_nil := by simp
  ordinary := by decide

theorem ignoring_case_keeps_match_accented : ∃ p q, compile "?[A-Z]*" true = .ok p ∧
    p.admits accentedPath = true ∧ compile "?[A-Z]*" false = .ok q ∧
    q.admits accentedPath = true := by
  have hsegments : (parts (fold true "?[A-Z]*".toList)).map Glob.compile =
      [[.anyChar, .charSet false [.range 'A' 'Z'], .anyRun]] := by cbv
  have hp : compile "?[A-Z]*" true = .ok ⟨"?[A-Z]*", false, true,
      [[.anyChar, .charSet false [.range 'A' 'Z'], .anyRun]]⟩ := by
    have hparts : parts "?[A-Z]*".toList = ["?[A-Z]*".toList] := by cbv
    rw [compile_eq_ok, hsegments, hparts]
    exact ⟨by simp, rfl⟩
  have hadmits : (Pattern.mk "?[A-Z]*" false true
      [[.anyChar, .charSet false [.range 'A' 'Z'], .anyRun]]).admits accentedPath = true := by cbv
  have hkept : (Glob.Token.charSet false [.range 'A' 'Z']).Keeps 'K' := by
    have hform : lowerForms 'K' = [['k']] := by decide +kernel
    have hfolded : Glob.members (lowercase ['A', '-', 'Z']) = [.range 'a' 'z'] := by
      decide +kernel
    refine ⟨by decide, ?_⟩
    rw [hform, List.forall_mem_singleton, List.forall_mem_singleton]
    exact congrArg (fun items => (Glob.Token.charSet false items).accepts 'k') hfolded
  have hkeeps : Glob.KeepsMatch [.anyChar, .charSet false [.range 'A' 'Z'], .anyRun]
      ['É', 'K', 's', 'p'] := by
    have hone : ∀ c ∈ ['É', 'K', 's', 'p'], Glob.Token.anyChar.Keeps c := by
      simp [Glob.Token.Keeps]
    have hset : ∀ c ∈ ['É', 'K', 's', 'p'],
        (Glob.Token.charSet false [.range 'A' 'Z']).accepts c = true →
          (Glob.Token.charSet false [.range 'A' 'Z']).Keeps c := by
      simp [Glob.Token.accepts, Glob.SetItem.contains, hkept]
    right
    intro token htoken c hc haccepts
    simp only [List.mem_cons, List.not_mem_nil, or_false] at htoken
    rcases htoken with rfl | rfl | rfl
    · exact hone c hc
    · exact hset c hc haccepts
    · trivial
  obtain ⟨q, hq, -, hkeepsMatch⟩ := ignoring_case_keeps_match hp
  exact ⟨_, q, hp, hadmits, hq, hkeepsMatch accentedPath hadmits (.cons hkeeps .nil)⟩

/-- The range from `A` to `_` has none of its letters when it is folded, and then nothing. -/
theorem folded_range_loses_letter : ∃ p q, compile "[A-_]" true = .ok p ∧
    compile "[A-_]" false = .ok q ∧
    (∀ segment ∈ p.segments, ∀ items, .charSet true items ∉ segment) ∧
    p.admits (.ofName "B" (by decide)) = true ∧ q.admits (.ofName "B" (by decide)) = false := by
  have hsegments : (parts (fold true "[A-_]".toList)).map Glob.compile =
      [[.charSet false [.range 'A' '_']]] := by cbv
  have hfolded : (parts (fold false "[A-_]".toList)).map Glob.compile =
      [[.charSet false [.range 'a' '_']]] := by cbv
  have hparts : parts "[A-_]".toList ≠ [] := by
    have hone : parts "[A-_]".toList = ["[A-_]".toList] := by cbv
    rw [hone]
    simp
  refine ⟨_, _, compile_eq_ok.2 ⟨hparts, rfl⟩, compile_eq_ok.2 ⟨hparts, rfl⟩, ?_, ?_, ?_⟩
  · rw [hsegments]
    simp
  · rw [hsegments]
    cbv
  · rw [hfolded]
    cbv

end Pattern

end TreeArchive
