/-! What one path component of an exclusion pattern is made of, and how its text is read. -/
namespace TreeArchive.Glob

inductive SetItem where
  | single (c : Char)
  | range (low high : Char)
deriving DecidableEq, Repr

def SetItem.contains (item : SetItem) (c : Char) : Bool :=
  match item with
  | .single s => s == c
  | .range low high => low ≤ c && c ≤ high

inductive Token where
  | literal (c : Char)
  | anyChar
  | anyRun
  | charSet (negated : Bool) (items : List SetItem)
deriving DecidableEq, Repr

/-- The token takes exactly one character, and takes `c`. -/
def Token.accepts : Token → Char → Bool
  | .literal l, c => l == c
  | .anyChar, _ => true
  | .anyRun, _ => false
  | .charSet negated items, c => items.any (·.contains c) != negated

/-- The members of a set and the text behind its `]`, or nothing if no `]` closes it. A `]` in the
first place is a member, and so is a `-` with no member on its other side. -/
def readItems (isFirst : Bool) : List Char → Option (List SetItem × List Char)
  | [] => none
  | c :: '-' :: high :: rest =>
    if c = ']' ∧ ¬isFirst then some ([], '-' :: high :: rest)
    else if high = ']' then
      (readItems false ('-' :: high :: rest)).map fun (items, tail) => (.single c :: items, tail)
    else (readItems false rest).map fun (items, tail) => (.range c high :: items, tail)
  | c :: rest =>
    if c = ']' ∧ ¬isFirst then some ([], rest)
    else (readItems false rest).map fun (items, tail) => (.single c :: items, tail)

theorem length_of_map_item {item : SetItem} {result : Option (List SetItem × List Char)} {n m : Nat}
    {items : List SetItem} {rest : List Char} (hnm : n ≤ m)
    (hresult : ∀ {rest items}, result = some (items, rest) → List.length rest < n)
    (h : result.map (fun (items, tail) => (item :: items, tail)) = some (items, rest)) :
    rest.length < m := by
  obtain ⟨⟨_, _⟩, hsome, heq⟩ := Option.map_eq_some_iff.1 h
  obtain ⟨_, rfl⟩ := Prod.mk.inj heq
  exact Nat.lt_of_lt_of_le (hresult hsome) hnm

theorem length_readItems {isFirst : Bool} {text rest : List Char} {items : List SetItem}
    (h : readItems isFirst text = some (items, rest)) : rest.length < text.length := by
  fun_induction readItems isFirst text generalizing items rest with
  | case1 => simp at h
  | case2 => simp_all
  | case3 _ _ _ _ ih => exact length_of_map_item (by simp) ih h
  | case4 _ _ _ _ _ _ ih =>
    exact length_of_map_item (by simp only [List.length_cons]; omega) ih h
  | case5 => simp_all
  | case6 _ _ _ _ _ ih => exact length_of_map_item (by simp) ih h

/-- A set read behind its `[`; a `!` in front negates it. -/
def readSet? : List Char → Option (Token × List Char)
  | '!' :: rest => (readItems true rest).map fun (items, tail) => (.charSet true items, tail)
  | text => (readItems true text).map fun (items, tail) => (.charSet false items, tail)

theorem length_readSet? {text rest : List Char} {token : Token}
    (h : readSet? text = some (token, rest)) : rest.length < text.length := by
  unfold readSet? at h
  split at h
  · obtain ⟨⟨a, b⟩, hab, heq⟩ := Option.map_eq_some_iff.1 h
    obtain ⟨_, rfl⟩ := Prod.mk.inj heq
    exact Nat.lt_succ_of_lt (length_readItems hab)
  · obtain ⟨⟨a, b⟩, hab, heq⟩ := Option.map_eq_some_iff.1 h
    obtain ⟨_, rfl⟩ := Prod.mk.inj heq
    exact length_readItems hab

/-- One `*` stands for a run of them. -/
def consToken : Token → List Token → List Token
  | .anyRun, .anyRun :: rest => .anyRun :: rest
  | token, rest => token :: rest

/-- The tokens of one component; a `[` that nothing closes is itself. -/
def compile (text : List Char) : List Token :=
  match text with
  | [] => []
  | '*' :: rest => consToken .anyRun (compile rest)
  | '?' :: rest => .anyChar :: compile rest
  | '[' :: rest =>
    match h : readSet? rest with
    | some (token, tail) =>
      have := length_readSet? h
      token :: compile tail
    | none => .literal '[' :: compile rest
  | c :: rest => .literal c :: compile rest
termination_by text.length

end TreeArchive.Glob
