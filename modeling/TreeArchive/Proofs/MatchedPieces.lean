import Mathlib.Data.List.Forall2
import Mathlib.Logic.Basic
import TreeArchive.Glob.Match

/-!
What the matcher decides. Tokens take a text if it can be cut into pieces, one for each token. The
matcher finds out although it goes back to the latest `*` only, and by positions it never leaves its
lists.
-/
namespace TreeArchive.Glob

/-- The character is a member. -/
def SetItem.Holds : SetItem → Char → Prop
  | .single s, c => c = s
  | .range low high, c => low ≤ c ∧ c ≤ high

/-- A `*` takes any piece of a text, every other token one character. -/
def Token.Takes : Token → List Char → Prop
  | .anyRun, _ => True
  | .literal l, piece => piece = [l]
  | .anyChar, piece => ∃ c, piece = [c]
  | .charSet negated items, piece =>
    ∃ c, piece = [c] ∧ Xor (∃ item ∈ items, item.Holds c) (negated = true)

/-- The text can be cut into pieces, one for each token in order. -/
def Fits (tokens : List Token) (text : List Char) : Prop :=
  ∃ pieces, List.Forall₂ Token.Takes tokens pieces ∧ pieces.flatten = text

variable {token : Token} {tokens : List Token} {c : Char} {text : List Char}

theorem SetItem.contains_iff {item : SetItem} : item.contains c = true ↔ item.Holds c := by
  cases item with
  | single s => exact beq_iff_eq.trans eq_comm
  | range low high => rw [contains, Bool.and_eq_true, decide_eq_true_eq, decide_eq_true_eq, Holds]

theorem Token.takes_iff (h : token ≠ .anyRun) {piece : List Char} :
    token.Takes piece ↔ ∃ c, piece = [c] ∧ token.accepts c = true := by
  cases token with
  | literal l => simp [Takes, accepts]
  | anyChar => simp [Takes, accepts]
  | anyRun => exact absurd rfl h
  | charSet negated items =>
    have hany (c : Char) :
        (items.any (·.contains c)) = true ↔ ∃ item ∈ items, item.Holds c := by
      simp [SetItem.contains_iff]
    apply exists_congr
    intro c
    rw [← hany, accepts]
    cases items.any (·.contains c) <;> cases negated <;> simp [Xor]

theorem fits_nil : Fits [] text ↔ text = [] := by
  constructor
  · rintro ⟨pieces, hpieces, rfl⟩
    cases hpieces
    rfl
  · rintro rfl
    exact ⟨[], .nil, rfl⟩

theorem fits_cons : Fits (token :: tokens) text ↔
    ∃ piece rest, token.Takes piece ∧ Fits tokens rest ∧ piece ++ rest = text := by
  constructor
  · rintro ⟨pieces, hpieces, rfl⟩
    obtain ⟨piece, others, htakes, hothers, rfl⟩ := List.forall₂_cons_left_iff.1 hpieces
    exact ⟨piece, others.flatten, htakes, ⟨others, hothers, rfl⟩, rfl⟩
  · rintro ⟨piece, rest, htakes, ⟨others, hothers, rfl⟩, rfl⟩
    exact ⟨piece :: others, .cons htakes hothers, rfl⟩

theorem fits_anyRun : Fits (.anyRun :: tokens) text ↔ ∃ k, Fits tokens (text.drop k) := by
  rw [fits_cons]
  constructor
  · rintro ⟨piece, rest, -, hrest, rfl⟩
    exact ⟨piece.length, by rwa [List.drop_left]⟩
  · rintro ⟨k, hrest⟩
    exact ⟨text.take k, text.drop k, trivial, hrest, List.take_append_drop k text⟩

theorem fits_one_cons (h : token ≠ .anyRun) :
    Fits (token :: tokens) (c :: text) ↔ token.accepts c = true ∧ Fits tokens text := by
  rw [fits_cons]
  constructor
  · rintro ⟨piece, rest, htakes, hrest, heq⟩
    obtain ⟨c', rfl, haccepts⟩ := (Token.takes_iff h).1 htakes
    obtain ⟨rfl, rfl⟩ := List.cons.inj heq
    exact ⟨haccepts, hrest⟩
  · rintro ⟨haccepts, hrest⟩
    exact ⟨[c], text, (Token.takes_iff h).2 ⟨c, rfl, haccepts⟩, hrest, rfl⟩

theorem not_fits_one_nil (h : token ≠ .anyRun) : ¬Fits (token :: tokens) [] := by
  rw [fits_cons]
  rintro ⟨piece, rest, htakes, -, heq⟩
  obtain ⟨c, rfl, -⟩ := (Token.takes_iff h).1 htakes
  cases heq

/-- Nothing is left for tokens that are all `*`. -/
theorem fits_nil_text : Fits tokens [] ↔ tokens.all (· == .anyRun) = true := by
  induction tokens with
  | nil => simp [fits_nil]
  | cons token rest ih =>
    by_cases h : token = .anyRun
    · subst h
      simp [fits_anyRun, ih]
    · simp [not_fits_one_nil h, h]

/-- Tokens that are no `*` take as many characters, and what comes behind them the rest. -/
theorem fits_append {between : List Token} (h : .anyRun ∉ between)
    (hfits : Fits (between ++ tokens) text) :
    between.length ≤ text.length ∧ Fits tokens (text.drop between.length) := by
  induction between generalizing text with
  | nil => exact ⟨Nat.zero_le _, hfits⟩
  | cons token rest ih =>
    rw [List.mem_cons, not_or] at h
    cases text with
    | nil => exact absurd hfits (not_fits_one_nil (Ne.symm h.1))
    | cons c text =>
      obtain ⟨hlength, hrest⟩ := ih h.2 ((fits_one_cons (Ne.symm h.1)).1 hfits).2
      exact ⟨Nat.succ_le_succ hlength, hrest⟩

namespace Retry

variable {retry : Retry} {behind : List Token} {absorbed : List Char}

/-- Going back may still find a way: the latest `*` absorbs some more characters. -/
def Offers (retry : Retry) : Prop :=
  ∃ behind absorbed k, retry = some (behind, absorbed) ∧ k < absorbed.length ∧
    Fits behind (absorbed.drop (k + 1))

/-- Since the latest `*` as many tokens have been passed as characters, and no other `*`. -/
def LeadsTo (retry : Retry) (tokens : List Token) (text : List Char) : Prop :=
  ∀ behind absorbed, retry = some (behind, absorbed) → ∃ between passed,
    behind = between ++ tokens ∧ absorbed = passed ++ text ∧ between.length = passed.length ∧
      .anyRun ∉ between

theorem LeadsTo.start : LeadsTo (some (tokens, text)) tokens text := by
  rintro _ _ ⟨⟩
  exact ⟨[], [], rfl, rfl, rfl, List.not_mem_nil⟩

theorem LeadsTo.step (h : retry.LeadsTo (token :: tokens) (c :: text)) (htoken : token ≠ .anyRun) :
    retry.LeadsTo tokens text := by
  intro behind absorbed hretry
  obtain ⟨between, passed, rfl, rfl, hlength, hbetween⟩ := h behind absorbed hretry
  refine ⟨between ++ [token], passed ++ [c], by simp, by simp, by simp [hlength], ?_⟩
  simp [hbetween, Ne.symm htoken]

/-- What going back could find, the tokens and the text that have been reached have too. -/
theorem LeadsTo.exists_fits (h : retry.LeadsTo tokens text) (hoffers : retry.Offers) :
    ∃ k < text.length, Fits tokens (text.drop (k + 1)) := by
  obtain ⟨behind, absorbed, k, hretry, hk, hfits⟩ := hoffers
  obtain ⟨between, passed, rfl, rfl, hlength, hbetween⟩ := h behind absorbed hretry
  obtain ⟨hle, hrest⟩ := fits_append hbetween hfits
  rw [List.length_drop] at hle
  rw [List.length_append] at hle hk
  refine ⟨k, by omega, ?_⟩
  have hdrop : ((passed ++ text).drop (k + 1)).drop between.length = text.drop (k + 1) := by
    rw [List.drop_drop, Nat.add_comm, hlength]
    exact List.drop_length_add_append _
  rwa [hdrop] at hrest

theorem offers_cons : Offers (some (behind, c :: absorbed)) ↔
    Fits behind absorbed ∨ Offers (some (behind, absorbed)) := by
  constructor
  · rintro ⟨_, _, k, ⟨⟩, hk, hfits⟩
    cases k with
    | zero => exact .inl hfits
    | succ k => exact .inr ⟨behind, absorbed, k, rfl, Nat.lt_of_succ_lt_succ hk, hfits⟩
  · rintro (hfits | ⟨_, _, k, ⟨⟩, hk, hfits⟩)
    · exact ⟨behind, c :: absorbed, 0, rfl, Nat.succ_pos _, hfits⟩
    · exact ⟨behind, c :: absorbed, k + 1, rfl, Nat.succ_lt_succ hk, hfits⟩

/-- A `*` absorbs nothing at first, and then one character after another. -/
theorem fits_anyRun_iff_offers : Fits (.anyRun :: tokens) text ↔
    Fits tokens text ∨ Offers (some (tokens, text)) := by
  rw [fits_anyRun]
  constructor
  · rintro ⟨k, hfits⟩
    induction text generalizing k with
    | nil =>
      rw [List.drop_nil] at hfits
      exact .inl hfits
    | cons c text ih =>
      cases k with
      | zero => exact .inl hfits
      | succ k => exact .inr (offers_cons.2 (ih k hfits))
  · rintro (hfits | ⟨_, _, k, ⟨⟩, -, hfits⟩)
    · exact ⟨0, hfits⟩
    · exact ⟨k + 1, hfits⟩

theorem not_offers (h : ∀ behind c absorbed, retry ≠ some (behind, c :: absorbed)) :
    ¬retry.Offers := by
  rintro ⟨behind, absorbed, k, rfl, hk, -⟩
  cases absorbed with
  | nil => exact Nat.not_lt_zero k hk
  | cons c absorbed => exact h behind c absorbed rfl

end Retry

/-- The matcher says whether the tokens take the text, or would take it if the latest `*` absorbed
more. -/
theorem matchFrom_iff {retry : Retry} (h : retry.LeadsTo tokens text) :
    matchFrom retry tokens text = true ↔ Fits tokens text ∨ retry.Offers := by
  fun_induction matchFrom retry tokens text with
  | case1 retry tokens =>
    rw [← fits_nil_text]
    refine ⟨.inl, fun hor => hor.resolve_right fun hoffers => ?_⟩
    obtain ⟨k, hk, -⟩ := h.exists_fits hoffers
    exact Nat.not_lt_zero k hk
  | case2 retry c text tokens ih =>
    -- an older `*` finds nothing that the new one does not find
    rw [ih .start, ← Retry.fits_anyRun_iff_offers]
    refine ⟨.inl, fun hor => hor.elim id fun hoffers => ?_⟩
    obtain ⟨k, -, hfits⟩ := h.exists_fits hoffers
    obtain ⟨k', hfits⟩ := fits_anyRun.1 hfits
    rw [List.drop_drop] at hfits
    exact fits_anyRun.2 ⟨_, hfits⟩
  | case3 retry c text token tokens haccepts htoken ih =>
    have hne : token ≠ .anyRun := fun heq => htoken tokens (congrArg (· :: tokens) heq)
    rw [ih (h.step hne), fits_one_cons hne, and_iff_right haccepts]
  | case4 c text token tokens haccepts behind c' absorbed htoken ih =>
    have hne : token ≠ .anyRun := fun heq => htoken tokens (congrArg (· :: tokens) heq)
    have hnone : ¬Fits (token :: tokens) (c :: text) := fun hfits =>
      haccepts ((fits_one_cons hne).1 hfits).1
    rw [ih .start, ← Retry.offers_cons, or_iff_right hnone]
  | case5 retry c text token tokens haccepts hretry htoken =>
    have hne : token ≠ .anyRun := fun heq => htoken tokens (congrArg (· :: tokens) heq)
    have hnone : ¬Fits (token :: tokens) (c :: text) := fun hfits =>
      haccepts ((fits_one_cons hne).1 hfits).1
    rw [or_iff_right hnone, iff_false_left (by simp)]
    exact Retry.not_offers hretry
  | case6 c text behind c' absorbed htoken ih =>
    have hnone : ¬Fits [] (c :: text) := fun hfits => List.cons_ne_nil c text (fits_nil.1 hfits)
    rw [ih .start, ← Retry.offers_cons, or_iff_right hnone]
  | case7 retry c text hretry htoken =>
    have hnone : ¬Fits [] (c :: text) := fun hfits => List.cons_ne_nil c text (fits_nil.1 hfits)
    rw [or_iff_right hnone, iff_false_left (by simp)]
    exact Retry.not_offers hretry

theorem matchesAll_iff : matchesAll tokens text = true ↔ Fits tokens text := by
  have hnone : Retry.LeadsTo none tokens text := by
    rintro behind absorbed ⟨⟩
  rw [matchesAll, matchFrom_iff hnone, or_iff_left]
  exact Retry.not_offers fun behind c absorbed => by simp

/-- A place in the lists by positions: of the next token, of the next character, and of the latest
`*` with that of the first character that it has not absorbed. -/
structure Cursor where
  token : Nat
  char : Nat
  star : Option (Nat × Nat)

/-- What one turn comes to. It leaves its range if it looks or cuts behind the end of a list. -/
inductive Turn where
  | goesOn (cursor : Cursor)
  | answers (taken : Bool)
  | leavesRange

namespace Cursor

def start : Cursor := ⟨0, 0, none⟩

/-- Lets the latest `*` absorb one more character, if there is one. -/
def goBack (star : Option (Nat × Nat)) : Turn :=
  match star with
  | some (star, absorbed) => .goesOn ⟨star + 1, absorbed + 1, some (star, absorbed + 1)⟩
  | none => .answers false

def turn (tokens : List Token) (text : List Char) (here : Cursor) : Turn :=
  if here.char < text.length then
    match tokens[here.token]? with
    | some .anyRun => .goesOn ⟨here.token + 1, here.char, some (here.token, here.char)⟩
    | some token =>
      match text[here.char]? with
      | some c =>
        if token.accepts c then .goesOn ⟨here.token + 1, here.char + 1, here.star⟩
        else goBack here.star
      | none => .leavesRange
    | none => goBack here.star
  else if here.token ≤ tokens.length then
    .answers ((tokens.drop here.token).all (· == .anyRun))
  else .leavesRange

/-- Some turns, or fewer if one does not go on. -/
def turns (tokens : List Token) (text : List Char) : Nat → Cursor → Turn
  | 0, here => .goesOn here
  | n + 1, here =>
    match turn tokens text here with
    | .goesOn next => turns tokens text n next
    | last => last

/-- The positions are those of the rests of the lists that are still to be matched. -/
structure Stands (tokens₀ : List Token) (text₀ : List Char) (here : Cursor) (retry : Retry)
    (tokens : List Token) (text : List Char) : Prop where
  tokens : tokens₀.drop here.token = tokens
  token_le : here.token ≤ tokens₀.length
  text : text₀.drop here.char = text
  char_le : here.char ≤ text₀.length
  retry : retry = here.star.map fun (star, absorbed) =>
    (tokens₀.drop (star + 1), text₀.drop absorbed)
  star : ∀ star absorbed, here.star = some (star, absorbed) →
    star < tokens₀.length ∧ absorbed ≤ here.char

theorem of_drop_eq_cons {α : Type} {xs rest : List α} {i : Nat} {x : α}
    (h : xs.drop i = x :: rest) : i < xs.length ∧ xs[i]? = some x ∧ xs.drop (i + 1) = rest := by
  have hlt : i < xs.length := by
    by_contra hge
    rw [List.drop_eq_nil_of_le (Nat.le_of_not_lt hge)] at h
    cases h
  rw [List.drop_eq_getElem_cons hlt] at h
  obtain ⟨rfl, rfl⟩ := List.cons.inj h
  exact ⟨hlt, List.getElem?_eq_getElem hlt, rfl⟩

variable {tokens₀ : List Token} {text₀ : List Char} {here next : Cursor} {retry : Retry}
  {behind : List Token} {c' : Char} {absorbed : List Char}

theorem turns_step (h : turn tokens₀ text₀ here = .goesOn next) (n : Nat) :
    turns tokens₀ text₀ (n + 1) here = turns tokens₀ text₀ n next := by
  rw [turns, h]

theorem turns_answers {taken : Bool} (h : turn tokens₀ text₀ here = .answers taken) :
    turns tokens₀ text₀ 1 here = .answers taken := by
  rw [turns, h]

/-- More turns change nothing once one does not go on. -/
theorem turns_of_le {n m : Nat} (h : ∀ next, turns tokens₀ text₀ n here ≠ .goesOn next)
    (hle : n ≤ m) : turns tokens₀ text₀ m here = turns tokens₀ text₀ n here := by
  induction n generalizing here m with
  | zero => exact absurd rfl (h here)
  | succ n ih =>
    obtain ⟨m, rfl⟩ := Nat.exists_eq_add_one_of_ne_zero (Nat.ne_zero_of_lt hle)
    cases hturn : turn tokens₀ text₀ here with
    | goesOn next =>
      rw [turns_step hturn] at h ⊢
      rw [turns_step hturn]
      exact ih h (Nat.le_of_succ_le_succ hle)
    | _ => simp only [turns, hturn]

theorem not_leavesRange {taken : Bool} {n : Nat} (h : turns tokens₀ text₀ n here = .answers taken)
    (m : Nat) : turns tokens₀ text₀ m here ≠ .leavesRange := by
  intro hm
  rcases Nat.le_total n m with hle | hle
  · rw [turns_of_le (by simp [h]) hle, h] at hm
    cases hm
  · rw [turns_of_le (by simp [hm]) hle, hm] at h
    cases h

theorem Stands.turn_end (h : Stands tokens₀ text₀ here retry tokens []) :
    turn tokens₀ text₀ here = .answers (tokens.all (· == .anyRun)) := by
  have hchar : ¬here.char < text₀.length := Nat.not_lt.2 (List.drop_eq_nil_iff.1 h.text)
  rw [turn, if_neg hchar, if_pos h.token_le, h.tokens]

theorem Stands.turn_star (h : Stands tokens₀ text₀ here retry (.anyRun :: tokens) (c :: text)) :
    ∃ next, turn tokens₀ text₀ here = .goesOn next ∧
      Stands tokens₀ text₀ next (some (tokens, c :: text)) tokens (c :: text) := by
  obtain ⟨htoken, hget, hdrop⟩ := of_drop_eq_cons h.tokens
  obtain ⟨hchar, -⟩ := of_drop_eq_cons h.text
  refine ⟨⟨here.token + 1, here.char, some (here.token, here.char)⟩, ?_, ?_⟩
  · simp only [turn, if_pos hchar, hget]
  · refine ⟨hdrop, htoken, h.text, h.char_le, ?_, ?_⟩
    · simp only [Option.map_some, hdrop, h.text]
    · rintro _ _ ⟨⟩
      exact ⟨htoken, Nat.le_refl _⟩

theorem Stands.turn_one (h : Stands tokens₀ text₀ here retry (token :: tokens) (c :: text))
    (hne : token ≠ .anyRun) : ∃ next, Stands tokens₀ text₀ next retry tokens text ∧
      turn tokens₀ text₀ here =
        if token.accepts c = true then .goesOn next else goBack here.star := by
  obtain ⟨htoken, hget, hdrop⟩ := of_drop_eq_cons h.tokens
  obtain ⟨hchar, hget', hdrop'⟩ := of_drop_eq_cons h.text
  refine ⟨⟨here.token + 1, here.char + 1, here.star⟩, ?_, ?_⟩
  · refine ⟨hdrop, htoken, hdrop', hchar, h.retry, ?_⟩
    intro star absorbed hstar
    obtain ⟨hlt, hle⟩ := h.star star absorbed hstar
    exact ⟨hlt, Nat.le_succ_of_le hle⟩
  · cases token with
    | anyRun => exact absurd rfl hne
    | _ => simp only [turn, if_pos hchar, hget, hget']

theorem Stands.turn_behind (h : Stands tokens₀ text₀ here retry [] (c :: text)) :
    turn tokens₀ text₀ here = goBack here.star := by
  obtain ⟨hchar, -⟩ := of_drop_eq_cons h.text
  have hget : tokens₀[here.token]? = none :=
    List.getElem?_eq_none (List.drop_eq_nil_iff.1 h.tokens)
  simp only [turn, if_pos hchar, hget]

theorem Stands.goBack_step
    (h : Stands tokens₀ text₀ here (some (behind, c' :: absorbed)) tokens text) :
    ∃ next, goBack here.star = .goesOn next ∧
      Stands tokens₀ text₀ next (some (behind, absorbed)) behind absorbed := by
  obtain ⟨⟨star, char⟩, hstar, heq⟩ := Option.map_eq_some_iff.1 h.retry.symm
  obtain ⟨rfl, habsorbed⟩ := Prod.mk.inj heq
  obtain ⟨hlt, -⟩ := h.star star char hstar
  obtain ⟨hchar, -, hdrop⟩ := of_drop_eq_cons habsorbed
  refine ⟨⟨star + 1, char + 1, some (star, char + 1)⟩, by rw [hstar, goBack], ?_⟩
  refine ⟨rfl, hlt, hdrop, hchar, ?_, ?_⟩
  · simp only [Option.map_some, hdrop]
  · rintro _ _ ⟨⟩
    exact ⟨hlt, Nat.le_refl _⟩

/-- What the latest `*` has not absorbed is not empty while a character is to be matched. -/
theorem Stands.goBack_stuck (h : Stands tokens₀ text₀ here retry tokens (c :: text))
    (hretry : ∀ behind head absorbed, retry ≠ some (behind, head :: absorbed)) :
    goBack here.star = .answers false := by
  cases hstar : here.star with
  | none => rfl
  | some pair =>
    obtain ⟨star, char⟩ := pair
    obtain ⟨hchar, -⟩ := of_drop_eq_cons h.text
    have hlt : char < text₀.length := Nat.lt_of_le_of_lt (h.star star char hstar).2 hchar
    have heq := h.retry
    simp only [hstar, Option.map_some, List.drop_eq_getElem_cons hlt] at heq
    exact absurd heq (hretry _ _ _)

/-- The matcher by positions answers as the matcher by lists does. -/
theorem Stands.exists_turns (h : Stands tokens₀ text₀ here retry tokens text) :
    ∃ n, turns tokens₀ text₀ n here = .answers (matchFrom retry tokens text) := by
  have hstep {here next : Cursor} {taken : Bool} (hturn : turn tokens₀ text₀ here = .goesOn next)
      (hnext : ∃ n, turns tokens₀ text₀ n next = .answers taken) :
      ∃ n, turns tokens₀ text₀ n here = .answers taken := by
    obtain ⟨n, hn⟩ := hnext
    exact ⟨n + 1, (turns_step hturn n).trans hn⟩
  fun_induction matchFrom retry tokens text generalizing here with
  | case1 retry tokens => exact ⟨1, turns_answers h.turn_end⟩
  | case2 retry c text tokens ih =>
    obtain ⟨next, hturn, hnext⟩ := h.turn_star
    exact hstep hturn (ih hnext)
  | case3 retry c text token tokens haccepts htoken ih =>
    obtain ⟨next, hnext, hturn⟩ := h.turn_one fun heq => htoken tokens (congrArg (· :: tokens) heq)
    rw [if_pos haccepts] at hturn
    exact hstep hturn (ih hnext)
  | case4 c text token tokens haccepts behind c' absorbed htoken ih =>
    obtain ⟨_, -, hturn⟩ := h.turn_one fun heq => htoken tokens (congrArg (· :: tokens) heq)
    rw [if_neg haccepts] at hturn
    obtain ⟨next, hback, hnext⟩ := h.goBack_step
    exact hstep (hturn.trans hback) (ih hnext)
  | case5 retry c text token tokens haccepts hretry htoken =>
    obtain ⟨_, -, hturn⟩ := h.turn_one fun heq => htoken tokens (congrArg (· :: tokens) heq)
    rw [if_neg haccepts] at hturn
    exact ⟨1, turns_answers (hturn.trans (h.goBack_stuck hretry))⟩
  | case6 c text behind c' absorbed htoken ih =>
    obtain ⟨next, hback, hnext⟩ := h.goBack_step
    exact hstep (h.turn_behind.trans hback) (ih hnext)
  | case7 retry c text hretry htoken =>
    exact ⟨1, turns_answers (h.turn_behind.trans (h.goBack_stuck hretry))⟩

theorem stands_start (tokens : List Token) (text : List Char) :
    Stands tokens text start none tokens text := by
  refine ⟨rfl, Nat.zero_le _, rfl, Nat.zero_le _, rfl, ?_⟩
  rintro star absorbed ⟨⟩

end Cursor

/-- By positions the matcher comes to its answer and never leaves its lists. It says yes exactly if
the text can be cut into pieces, one for each token in order. -/
theorem match_decides_cut (tokens : List Token) (text : List Char) :
    (∃ n, Cursor.turns tokens text n .start = .answers (matchesAll tokens text)) ∧
    (∀ n, Cursor.turns tokens text n .start ≠ .leavesRange) ∧
    (matchesAll tokens text = true ↔
      ∃ pieces, List.Forall₂ Token.Takes tokens pieces ∧ pieces.flatten = text) := by
  obtain ⟨n, hanswer⟩ := (Cursor.stands_start tokens text).exists_turns
  exact ⟨⟨n, hanswer⟩, Cursor.not_leavesRange hanswer, matchesAll_iff⟩

/-- The second `*` absorbs `bya` in the end. -/
example : matchesAll [.anyRun, .literal 'a', .anyRun, .literal 'b', .literal 'c']
    "xabyabc".toList = true := by
  cbv

end TreeArchive.Glob
