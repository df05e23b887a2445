import Mathlib.Data.Nat.Find
import TreeArchive.Proofs.MatchedPieces

/-!
How the text of one pattern component is read. The grammar speaks of positions: a `[` opens a set
exactly if a `]` comes behind its first member, and the first such `]` ends it. The tokens of a
component are those that the grammar reads, one behind the other, and together they spell its text.
-/
namespace TreeArchive.Glob

/-- The members of a set, read from the left: `x-y` is a range, all else stands for itself. -/
def members : List Char → List SetItem
  | low :: '-' :: high :: rest => .range low high :: members rest
  | c :: rest => .single c :: members rest
  | [] => []

/-- The sign that negates a set. -/
def mark (negated : Bool) : List Char :=
  if negated then ['!'] else []

def SetItem.spelling : SetItem → List Char
  | .single c => [c]
  | .range low high => [low, '-', high]

/-- The piece of text stands for the token. -/
def Token.SpelledBy : Token → List Char → Prop
  | .literal c, piece => piece = [c]
  | .anyChar, piece => piece = ['?']
  | .anyRun, piece => ∃ n, piece = List.replicate (n + 1) '*'
  | .charSet negated items, piece =>
    piece = '[' :: (mark negated ++ items.flatMap SetItem.spelling) ++ [']']

section Reading

variable (text : List Char)

/-- Where the members of a set begin that is opened at `i`. -/
def membersFrom (i : Nat) : Nat :=
  if text[i + 1]? = some '!' then i + 2 else i + 1

/-- The first `]` behind position `j` stands at `stop`. -/
structure Closes (j stop : Nat) : Prop where
  behind : j < stop
  bracket : text[stop]? = some ']'
  first : ∀ k, j < k → k < stop → text[k]? ≠ some ']'

/-- What stands from one position up to another. -/
def part (i k : Nat) : List Char :=
  (text.drop i).take (k - i)

/-- The token that stands in a text from one position up to another. -/
inductive Reads : Nat → Nat → Token → Prop where
  | stars {i k : Nat} (hlt : i < k) (hstars : ∀ m, i ≤ m → m < k → text[m]? = some '*')
      (hend : text[k]? ≠ some '*') : Reads i k .anyRun
  | question {i : Nat} (hchar : text[i]? = some '?') : Reads i (i + 1) .anyChar
  | itself {i : Nat} {c : Char} (hchar : text[i]? = some c) (hstar : c ≠ '*')
      (hquestion : c ≠ '?') (hbracket : c ≠ '[') : Reads i (i + 1) (.literal c)
  | set {i stop : Nat} (hchar : text[i]? = some '[')
      (hstop : Closes text (membersFrom text i) stop) :
      Reads i (stop + 1)
        (.charSet (text[i + 1]? == some '!') (members (part text (membersFrom text i) stop)))
  | unclosed {i : Nat} (hchar : text[i]? = some '[')
      (hnone : ∀ stop, ¬Closes text (membersFrom text i) stop) : Reads i (i + 1) (.literal '[')

/-- The tokens that stand in a text from a position to its end, one behind the other. -/
inductive Spells : Nat → List Token → Prop where
  | done : Spells text.length []
  | step {i k : Nat} {token : Token} {tokens : List Token} (hread : Reads text i k token)
      (hrest : Spells k tokens) : Spells i (token :: tokens)

end Reading

variable {text inner tail s : List Char} {c low high : Char} {token : Token} {tokens : List Token}
  {isFirst negated : Bool} {i j k stop : Nat}

theorem flatMap_spelling_members (s : List Char) :
    (members s).flatMap SetItem.spelling = s := by
  fun_induction members s with
  | case1 low high rest ih => simp [SetItem.spelling, ih]
  | case2 c rest _ ih => simp [SetItem.spelling, ih]
  | case3 => rfl

/-- The end of a range is a character of the text. -/
theorem mem_of_range_mem_members (h : .range low high ∈ members s) : high ∈ s := by
  rw [← flatMap_spelling_members s, List.mem_flatMap]
  exact ⟨_, h, by simp [SetItem.spelling]⟩

/-- The end of a range is not the first character of the text. -/
theorem mem_tail_of_range_mem_members (h : .range low high ∈ members s) : high ∈ s.tail := by
  fun_cases members s with
  | case1 low' high' rest =>
    rw [members, List.mem_cons] at h
    rcases h with heq | h
    · cases heq
      simp
    · simp [mem_of_range_mem_members h]
  | case2 c rest hrange =>
    rw [members, List.mem_cons] at h
    · rcases h with heq | h
      · cases heq
      · exact mem_of_range_mem_members h
    · exact hrange
  | case3 => cases h

theorem readItems_range (hc : low = ']' → isFirst = true) (hhigh : high ≠ ']') (s : List Char) :
    readItems isFirst (low :: '-' :: high :: s) =
      (readItems false s).map fun (items, tail) => (.range low high :: items, tail) := by
  rw [readItems, if_neg (by simpa using hc), if_neg hhigh]

theorem readItems_single (hc : c = ']' → isFirst = true)
    (hs : ∀ high rest, s = '-' :: high :: rest → high = ']') :
    readItems isFirst (c :: s) =
      (readItems false s).map fun (items, tail) => (.single c :: items, tail) := by
  by_cases hdash : ∃ high rest, s = '-' :: high :: rest
  · obtain ⟨high, rest, rfl⟩ := hdash
    rw [readItems, if_neg (by simpa using hc), if_pos (hs high rest rfl)]
  · rw [readItems, if_neg (by simpa using hc)]
    intro high rest heq
    exact hdash ⟨high, rest, heq⟩

theorem readItems_close (s : List Char) : readItems false (']' :: s) = some ([], s) := by
  by_cases hdash : ∃ high rest, s = '-' :: high :: rest
  · obtain ⟨high, rest, rfl⟩ := hdash
    rw [readItems, if_pos (by simp)]
  · rw [readItems, if_pos (by simp)]
    intro high rest heq
    exact hdash ⟨high, rest, heq⟩

/-- The characters of which a `]` would end a set: all but the first member's. -/
def closable (isFirst : Bool) (s : List Char) : List Char :=
  if isFirst then s.tail else s

theorem not_mem_closable_cons :
    ']' ∉ closable isFirst (c :: s) ↔ (c = ']' → isFirst = true) ∧ ']' ∉ s := by
  cases isFirst <;> simp [closable, eq_comm]

/-- Up to the first `]` that can end the set, all is members. -/
theorem readItems_of_closed (isFirst : Bool) (hinner : ']' ∉ closable isFirst inner)
    (hne : isFirst = true → inner ≠ []) (tail : List Char) :
    readItems isFirst (inner ++ ']' :: tail) = some (members inner, tail) := by
  fun_induction members inner generalizing isFirst with
  | case1 low high rest ih =>
    rw [not_mem_closable_cons, List.mem_cons, List.mem_cons, not_or, not_or] at hinner
    obtain ⟨hlow, -, hhigh, hrest⟩ := hinner
    rw [List.cons_append, List.cons_append, List.cons_append, readItems_range hlow (Ne.symm hhigh),
      ih false hrest (by simp), Option.map_some]
  | case2 c rest hrange ih =>
    rw [not_mem_closable_cons] at hinner
    have hsingle : ∀ high after, rest ++ ']' :: tail = '-' :: high :: after → high = ']' := by
      -- with no end of a range before the bracket, the bracket itself comes behind the `-`
      intro high after heq
      rcases rest with _ | ⟨dash, _ | ⟨high', rest⟩⟩
      · cases heq
      · cases heq
        rfl
      · cases heq
        exact (hrange _ _ rfl).elim
    rw [List.cons_append, readItems_single hinner.1 hsingle,
      ih false hinner.2 (by simp), Option.map_some]
  | case3 =>
    cases isFirst with
    | true => exact absurd rfl (hne rfl)
    | false => exact readItems_close tail

/-- No set is read where no `]` can end it. -/
theorem readItems_of_unclosed (isFirst : Bool) (h : ']' ∉ closable isFirst s) :
    readItems isFirst s = none := by
  fun_induction readItems isFirst s with
  | case1 => rfl
  | case2 isFirst c high rest hclose =>
    rw [not_mem_closable_cons] at h
    exact absurd (h.1 hclose.1) hclose.2
  | case3 isFirst c rest hclose ih =>
    rw [not_mem_closable_cons] at h
    simp at h
  | case4 isFirst c high rest hclose hhigh ih =>
    rw [not_mem_closable_cons, List.mem_cons, List.mem_cons, not_or, not_or] at h
    rw [ih h.2.2.2, Option.map_none]
  | case5 isFirst c rest hrange hclose =>
    rw [not_mem_closable_cons] at h
    exact absurd (h.1 hclose.1) hclose.2
  | case6 isFirst c rest hrange hclose ih =>
    rw [not_mem_closable_cons] at h
    rw [ih h.2, Option.map_none]

/-- A text starts with the sign that negates a set or does not. -/
theorem exists_mark (s : List Char) : ∃ negated rest, s = mark negated ++ rest ∧
    (negated = false → rest.head? ≠ some '!') := by
  by_cases h : s.head? = some '!'
  · exact ⟨true, s.tail, (List.cons_head?_tail h).symm, by simp⟩
  · exact ⟨false, s, rfl, fun _ => h⟩

/-- A `]` behind the first character closes a set, or there is none. -/
theorem closed_or_unclosed (s : List Char) :
    (∃ c inner tail, s = c :: inner ++ ']' :: tail ∧ ']' ∉ inner) ∨ ']' ∉ s.tail := by
  by_cases h : ']' ∈ s.tail
  · obtain ⟨inner, tail, htail, hinner⟩ := List.eq_append_cons_of_mem h
    cases s with
    | nil => cases h
    | cons c rest => exact .inl ⟨c, inner, tail, congrArg (c :: ·) htail, hinner⟩
  · exact .inr h

theorem readSet?_mark (hs : negated = false → s.head? ≠ some '!') :
    readSet? (mark negated ++ s) =
      (readItems true s).map fun (items, tail) => (.charSet negated items, tail) := by
  cases negated with
  | true => rfl
  | false =>
    rw [mark, if_neg Bool.false_ne_true, List.nil_append, readSet?]
    rintro rest rfl
    exact hs rfl rfl

theorem compile_star (s : List Char) : compile ('*' :: s) = consToken .anyRun (compile s) := by
  rw [compile]

theorem compile_question (s : List Char) : compile ('?' :: s) = .anyChar :: compile s := by
  rw [compile]

theorem compile_itself (hstar : c ≠ '*') (hquestion : c ≠ '?') (hbracket : c ≠ '[')
    (s : List Char) : compile (c :: s) = .literal c :: compile s := by
  rw [compile]
  · exact hstar
  · exact hquestion
  · exact hbracket

theorem compile_set (hmark : negated = false → c ≠ '!') (hinner : ']' ∉ inner)
    (tail : List Char) : compile ('[' :: (mark negated ++ (c :: inner ++ ']' :: tail))) =
      .charSet negated (members (c :: inner)) :: compile tail := by
  have hread : readSet? (mark negated ++ (c :: inner ++ ']' :: tail)) =
      some (.charSet negated (members (c :: inner)), tail) := by
    have hitems : readItems true (c :: inner ++ ']' :: tail) = some (members (c :: inner), tail) :=
      readItems_of_closed true (show ']' ∉ closable true (c :: inner) from hinner) (by simp) tail
    rw [readSet?_mark (by simpa using hmark), hitems]
    rfl
  rw [compile]
  split
  · rename_i hsome
    rw [hread] at hsome
    cases hsome
    rfl
  · rename_i hnone
    rw [hread] at hnone
    cases hnone

theorem compile_unclosed (hmark : negated = false → s.head? ≠ some '!') (hs : ']' ∉ s.tail) :
    compile ('[' :: (mark negated ++ s)) = .literal '[' :: compile (mark negated ++ s) := by
  have hread : readSet? (mark negated ++ s) = none := by
    rw [readSet?_mark hmark, readItems_of_unclosed true hs]
    rfl
  rw [compile]
  split
  · rename_i hsome
    rw [hread] at hsome
    cases hsome
  · rfl

/-- Induction along the tokens of a component, one case for each way in which one can start. -/
@[elab_as_elim]
theorem compile_induct {motive : List Char → Prop} (nil : motive [])
    (star : ∀ s, motive s → motive ('*' :: s))
    (question : ∀ s, motive s → motive ('?' :: s))
    (itself : ∀ c s, c ≠ '*' → c ≠ '?' → c ≠ '[' → motive s → motive (c :: s))
    (set : ∀ negated c inner tail, (negated = false → c ≠ '!') → ']' ∉ inner → motive tail →
      motive ('[' :: (mark negated ++ (c :: inner ++ ']' :: tail))))
    (unclosed : ∀ negated s, (negated = false → s.head? ≠ some '!') → ']' ∉ s.tail →
      motive (mark negated ++ s) → motive ('[' :: (mark negated ++ s)))
    (s : List Char) : motive s := by
  induction hlength : s.length using Nat.strongRecOn generalizing s with
  | ind n ih =>
    have hshorter {s' : List Char} (h : s'.length < s.length) : motive s' :=
      ih s'.length (hlength ▸ h) s' rfl
    cases s with
    | nil => exact nil
    | cons c rest =>
      by_cases hstar : c = '*'
      · rw [hstar]
        exact star rest (hshorter (by simp))
      by_cases hquestion : c = '?'
      · rw [hquestion]
        exact question rest (hshorter (by simp))
      by_cases hbracket : c = '['
      · subst hbracket
        obtain ⟨negated, s, rfl, hmark⟩ := exists_mark rest
        rcases closed_or_unclosed s with ⟨first, inner, tail, rfl, hinner⟩ | hs
        · refine set negated first inner tail (by simpa using hmark) hinner (hshorter ?_)
          simp only [List.length_cons, List.length_append]
          omega
        · exact unclosed negated s hmark hs (hshorter (by simp))
      · exact itself c rest hstar hquestion hbracket (hshorter (by simp))

theorem head?_compile (h : (compile s).head? = some .anyRun) : s.head? = some '*' := by
  cases s using compile_induct with
  | nil => simp [compile] at h
  | star s => rfl
  | question s => simp [compile_question] at h
  | itself c s hstar hquestion hbracket => simp [compile_itself hstar hquestion hbracket] at h
  | set negated c inner tail hmark hinner =>
    rw [compile_set hmark hinner] at h
    cases h
  | unclosed negated s hmark hs => simp [compile_unclosed hmark hs] at h

theorem consToken_of_head? (h : tokens.head? ≠ some .anyRun) :
    consToken .anyRun tokens = .anyRun :: tokens := by
  rw [consToken]
  rintro rest - rfl
  exact h rfl

/-- A run of `*` is one token. -/
theorem compile_stars (h : s.head? ≠ some '*') (n : Nat) :
    compile (List.replicate (n + 1) '*' ++ s) = .anyRun :: compile s := by
  induction n with
  | zero => exact (compile_star s).trans (consToken_of_head? (mt head?_compile h))
  | succ n ih =>
    rw [List.replicate_succ, List.cons_append, compile_star, ih]
    rfl

theorem part_eq (h : text.drop i = inner ++ s) (hk : k = i + inner.length) :
    part text i k = inner := by
  rw [part, h, hk, Nat.add_sub_cancel_left, List.take_left]

theorem closes_iff : Closes text j stop ↔ ∃ c inner tail, text.drop j = c :: inner ++ ']' :: tail ∧
    ']' ∉ inner ∧ stop = j + 1 + inner.length := by
  constructor
  · intro h
    obtain ⟨hlt, hbracket⟩ := List.getElem?_eq_some_iff.1 h.bracket
    obtain ⟨n, rfl⟩ := Nat.exists_eq_add_of_lt h.behind
    have hlength : ((text.drop (j + 1)).take n).length = n := by
      rw [List.length_take, List.length_drop]
      omega
    have hrest : (text.drop (j + 1)).drop n = ']' :: text.drop (j + n + 2) := by
      rw [List.drop_drop, Nat.add_right_comm, List.drop_eq_getElem_cons hlt, hbracket]
    have hj : j < text.length := by omega
    refine ⟨text[j], (text.drop (j + 1)).take n, text.drop (j + n + 2), ?_, ?_, ?_⟩
    · rw [List.cons_append, ← hrest, List.take_append_drop, ← List.drop_eq_getElem_cons]
    · intro hmem
      obtain ⟨m, hm', hget⟩ := List.getElem_of_mem hmem
      have hm : m < n := hlength ▸ hm'
      refine h.first (j + 1 + m) (by omega) (by omega) ?_
      rw [← List.getElem?_drop, ← List.getElem?_take_of_lt hm, List.getElem?_eq_getElem hm', hget]
    · rw [hlength]
      omega
  · rintro ⟨c, inner, tail, htext, hinner, rfl⟩
    have hget (m : Nat) : text[j + m]? = (c :: inner ++ ']' :: tail)[m]? := by
      rw [← htext, List.getElem?_drop]
    refine ⟨by omega, ?_, ?_⟩
    · rw [Nat.add_assoc, hget]
      simp [Nat.add_comm]
    · intro k hlt hk hbracket
      obtain ⟨m, rfl⟩ := Nat.exists_eq_add_of_lt hlt
      have hm : m < inner.length := by omega
      rw [Nat.add_assoc, hget, List.cons_append, List.getElem?_cons_succ,
        List.getElem?_append_left hm] at hbracket
      exact hinner (List.mem_of_getElem? hbracket)

/-- Behind a `[` the sign that negates comes or not, and then the members. -/
theorem drop_membersFrom (h : text.drop (i + 1) = mark negated ++ s)
    (hmark : negated = false → s.head? ≠ some '!') :
    membersFrom text i = i + 1 + (mark negated).length ∧ (text[i + 1]? == some '!') = negated ∧
      text.drop (membersFrom text i) = s := by
  have hget : text[i + 1]? = (mark negated ++ s).head? := by
    rw [← h, List.head?_drop]
  have hnegated : text[i + 1]? = some '!' ↔ negated = true := by
    rw [hget]
    cases negated with
    | true => simp [mark]
    | false => simpa [mark] using hmark rfl
  have hfrom : membersFrom text i = i + 1 + (mark negated).length := by
    unfold membersFrom
    cases negated <;> simp_all [mark]
  refine ⟨hfrom, ?_, ?_⟩
  · rw [Bool.eq_iff_iff, beq_iff_eq, hnegated]
  · rw [hfrom, ← List.drop_drop, h, List.drop_left]

theorem drop_of_getElem? (h : text[i]? = some c) : text.drop i = c :: text.drop (i + 1) := by
  obtain ⟨hlt, hget⟩ := List.getElem?_eq_some_iff.1 h
  rw [List.drop_eq_getElem_cons hlt, hget]

/-- A set that is closed: its sign, its members up to the bracket, and what stands behind. -/
theorem Closes.exists_set (hstop : Closes text (membersFrom text i) stop) :
    ∃ negated c inner tail, (negated = false → c ≠ '!') ∧ ']' ∉ inner ∧
      text.drop (i + 1) = mark negated ++ (c :: inner ++ ']' :: tail) ∧
      (text[i + 1]? == some '!') = negated ∧ part text (membersFrom text i) stop = c :: inner ∧
      text.drop (stop + 1) = tail := by
  obtain ⟨negated, s, hs, hmark⟩ := exists_mark (text.drop (i + 1))
  obtain ⟨-, hnegated, hdrop⟩ := drop_membersFrom hs hmark
  obtain ⟨c, inner, tail, hmembers, hinner, rfl⟩ := closes_iff.1 hstop
  obtain rfl : s = c :: inner ++ ']' :: tail := hdrop.symm.trans hmembers
  have hlength : membersFrom text i + 1 + inner.length =
      membersFrom text i + (c :: inner).length := by
    rw [List.length_cons]
    omega
  refine ⟨negated, c, inner, tail, by simpa using hmark, hinner, hs, hnegated,
    part_eq hmembers hlength, ?_⟩
  rw [hlength, ← List.drop_drop, ← List.drop_drop, hmembers, List.drop_left, List.drop_one,
    List.tail_cons]

theorem drop_of_stars (hlt : i < k) (h : ∀ m, i ≤ m → m < k → text[m]? = some '*') :
    text.drop i = List.replicate (k - i) '*' ++ text.drop k := by
  apply List.ext_getElem?
  intro m
  rw [List.getElem?_drop, List.getElem?_append, List.length_replicate]
  split
  · rename_i hm
    rw [h (i + m) (by omega) (by omega), List.getElem?_replicate, if_pos hm]
  · rw [List.getElem?_drop]
    congr 1
    omega

/-- Every position before the end of a text is one from which the grammar reads a token. -/
theorem exists_reads (h : i < text.length) : ∃ k token, Reads text i k token := by
  have hchar : text[i]? = some text[i] := List.getElem?_eq_getElem h
  by_cases hstar : text[i] = '*'
  · have hend : ∃ k, i < k ∧ text[k]? ≠ some '*' := ⟨text.length, h, by simp⟩
    refine ⟨Nat.find hend, .anyRun, .stars (Nat.find_spec hend).1 ?_ (Nat.find_spec hend).2⟩
    intro m him hm
    rcases Nat.eq_or_lt_of_le him with rfl | hlt
    · rw [hchar, hstar]
    · by_contra hother
      exact Nat.find_min hend hm ⟨hlt, hother⟩
  by_cases hquestion : text[i] = '?'
  · exact ⟨i + 1, .anyChar, .question (hquestion ▸ hchar)⟩
  by_cases hbracket : text[i] = '['
  · rw [hbracket] at hchar
    by_cases hstop : ∃ stop, Closes text (membersFrom text i) stop
    · obtain ⟨stop, hstop⟩ := hstop
      exact ⟨stop + 1, _, .set hchar hstop⟩
    · exact ⟨i + 1, .literal '[', .unclosed hchar (not_exists.1 hstop)⟩
  · exact ⟨i + 1, .literal text[i], .itself hchar hstar hquestion hbracket⟩

theorem Reads.compile_drop (h : Reads text i k token) :
    compile (text.drop i) = token :: compile (text.drop k) := by
  cases h with
  | stars hlt hstars hend =>
    obtain ⟨n, rfl⟩ := Nat.exists_eq_add_of_lt hlt
    have hn : i + n + 1 - i = n + 1 := by omega
    rw [drop_of_stars hlt hstars, hn, compile_stars]
    rwa [List.head?_drop]
  | question hchar => rw [drop_of_getElem? hchar, compile_question]
  | itself hchar hstar hquestion hbracket =>
    rw [drop_of_getElem? hchar, compile_itself hstar hquestion hbracket]
  | set hchar hstop =>
    obtain ⟨negated, c, inner, tail, hmark, hinner, hset, hnegated, hpart, htail⟩ :=
      hstop.exists_set
    rw [drop_of_getElem? hchar, hset, compile_set hmark hinner, hnegated, hpart, htail]
  | unclosed hchar hnone =>
    obtain ⟨negated, s, hs, hmark⟩ := exists_mark (text.drop (i + 1))
    obtain ⟨-, -, hdrop⟩ := drop_membersFrom hs hmark
    rcases closed_or_unclosed s with ⟨c, inner, tail, rfl, hinner⟩ | hunclosed
    · exact absurd (closes_iff.2 ⟨c, inner, tail, hdrop, hinner, rfl⟩) (hnone _)
    · rw [drop_of_getElem? hchar, hs, compile_unclosed hmark hunclosed]

theorem Reads.lt (h : Reads text i k token) : i < k := by
  cases h with
  | stars hlt => exact hlt
  | question => exact Nat.lt_succ_self i
  | itself => exact Nat.lt_succ_self i
  | set hchar hstop =>
    have hbehind := hstop.behind
    unfold membersFrom at hbehind
    split at hbehind <;> omega
  | unclosed => exact Nat.lt_succ_self i

theorem Reads.le_length (h : Reads text i k token) : k ≤ text.length := by
  have hbound {m : Nat} {c : Char} (hget : text[m]? = some c) : m + 1 ≤ text.length :=
    (List.getElem?_eq_some_iff.1 hget).1
  cases h with
  | stars hlt hstars =>
    have hlast := hbound (hstars (k - 1) (by omega) (by omega))
    omega
  | question hchar => exact hbound hchar
  | itself hchar => exact hbound hchar
  | set hchar hstop => exact hbound hstop.bracket
  | unclosed hchar => exact hbound hchar

/-- The end of a range is no bracket that ends its set. -/
theorem Reads.ne_bracket {items : List SetItem} (h : Reads text i k (.charSet negated items))
    (hrange : .range low high ∈ items) : high ≠ ']' := by
  cases h with
  | set hchar hstop =>
    obtain ⟨_, c, inner, tail, -, hinner, -, -, hpart, -⟩ := hstop.exists_set
    rw [hpart] at hrange
    rintro rfl
    exact hinner (mem_tail_of_range_mem_members hrange)

/-- A token is spelled by what stands at the positions that it is read from. -/
theorem Reads.spelledBy (h : Reads text i k token) : token.SpelledBy (part text i k) := by
  have hone {c : Char} (hget : text[i]? = some c) : part text i (i + 1) = [c] :=
    part_eq (drop_of_getElem? hget) rfl
  cases h with
  | stars hlt hstars =>
    obtain ⟨n, rfl⟩ := Nat.exists_eq_add_of_lt hlt
    have hn : i + n + 1 - i = n + 1 := by omega
    have hstars := drop_of_stars hlt hstars
    rw [hn] at hstars
    exact ⟨n, part_eq hstars (by rw [List.length_replicate, Nat.add_assoc])⟩
  | question hchar => exact hone hchar
  | itself hchar => exact hone hchar
  | set hchar hstop =>
    have hread := Reads.set hchar hstop
    have hlt := hread.lt
    have hle := hread.le_length
    obtain ⟨negated, c, inner, tail, -, -, hset, hnegated, hpart, htail⟩ := hstop.exists_set
    have hdrop : text.drop i = '[' :: (mark negated ++ (c :: inner)) ++ [']'] ++ tail := by
      rw [drop_of_getElem? hchar, hset]
      simp
    rw [hnegated, hpart, Token.SpelledBy, flatMap_spelling_members]
    apply part_eq hdrop
    -- what is left behind the bracket tells how far it stands from the start
    have hlength := congrArg List.length hdrop
    rw [List.length_append, ← htail, List.length_drop, List.length_drop] at hlength
    omega
  | unclosed hchar => exact hone hchar

theorem Spells.eq_compile (h : Spells text i tokens) : tokens = compile (text.drop i) := by
  induction h with
  | done => rw [List.drop_length, compile]
  | step hread hrest ih => rw [hread.compile_drop, ih]

theorem spells_compile (h : i ≤ text.length) : Spells text i (compile (text.drop i)) := by
  -- each token leaves less of the text
  induction hrest : text.length - i using Nat.strongRecOn generalizing i with
  | ind n ih =>
    rcases Nat.lt_or_eq_of_le h with hlt | rfl
    · obtain ⟨k, token, hread⟩ := exists_reads hlt
      have hik := hread.lt
      rw [hread.compile_drop]
      exact .step hread (ih (text.length - k) (by omega) hread.le_length rfl)
    · rw [List.drop_length, compile]
      exact .done

/-- One behind the other, the pieces that spell the tokens are the text. -/
theorem Spells.exists_pieces (h : Spells text i tokens) :
    ∃ pieces, List.Forall₂ Token.SpelledBy tokens pieces ∧ pieces.flatten = text.drop i := by
  induction h with
  | done => exact ⟨[], .nil, List.drop_length.symm⟩
  | @step i k token tokens hread hrest ih =>
    obtain ⟨pieces, hpieces, hflatten⟩ := ih
    refine ⟨part text i k :: pieces, .cons hread.spelledBy hpieces, ?_⟩
    have hrest : text.drop k = (text.drop i).drop (k - i) := by
      rw [List.drop_drop, Nat.add_sub_cancel' (Nat.le_of_lt hread.lt)]
    rw [List.flatten_cons, hflatten, part, hrest, List.take_append_drop]

theorem Spells.exists_reads (h : Spells text i tokens) (htoken : token ∈ tokens) :
    ∃ j k, Reads text j k token := by
  induction h with
  | done => cases htoken
  | @step i k _ _ hread _ ih =>
    rcases List.mem_cons.1 htoken with rfl | htoken
    · exact ⟨i, k, hread⟩
    · exact ih htoken

/-- The tokens of a component are those that the grammar reads from its start to its end, and no
others. A set takes what one of its members stands for, or what none does if it is negated. No range
ends in the bracket that closes the set, and the tokens spell the text without a gap. -/
theorem compile_follows_grammar (text : List Char) :
    (∀ tokens, Spells text 0 tokens ↔ tokens = compile text) ∧
    (∀ negated s c, (Token.charSet negated (members s)).accepts c = true ↔
      Xor (∃ item ∈ members s, item.Holds c) (negated = true)) ∧
    (∀ negated items low high, .charSet negated items ∈ compile text → .range low high ∈ items →
      high ≠ ']') ∧
    ∃ pieces, List.Forall₂ Token.SpelledBy (compile text) pieces ∧ pieces.flatten = text := by
  have hspells : Spells text 0 (compile text) := spells_compile (Nat.zero_le _)
  refine ⟨?_, ?_, ?_, hspells.exists_pieces⟩
  · intro tokens
    constructor
    · exact Spells.eq_compile
    · rintro rfl
      exact hspells
  · intro negated s c
    have htakes := @Token.takes_iff (.charSet negated (members s)) (by simp) [c]
    simpa [Token.Takes] using htakes.symm
  · intro negated items low high htoken hrange
    obtain ⟨j, k, hread⟩ := hspells.exists_reads htoken
    exact hread.ne_bracket hrange

/-- The first `]` is a member, the last `-` is one, and the `[` behind them is itself. -/
example : compile "**[]a-z-][!]".toList =
    [.anyRun, .charSet false [.single ']', .range 'a' 'z', .single '-'], .literal '[', .literal '!',
      .literal ']'] := by
  cbv

end TreeArchive.Glob
