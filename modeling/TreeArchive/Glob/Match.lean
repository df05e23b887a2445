import TreeArchive.Glob.Token

/-!
Matching tokens against the text of a component, going back to the latest `*` where a try fails.
-/
namespace TreeArchive.Glob

/-- The latest `*` met: the tokens behind it and the text from where it began to absorb. -/
abbrev Retry := Option (List Token × List Char)

def Retry.reach : Retry → Nat → Nat
  | none, n => n + 1
  | some (_, text), n => max text.length n

def matchFrom (retry : Retry) (tokens : List Token) (text : List Char) : Bool :=
  match text, tokens with
  | [], tokens => tokens.all (· == .anyRun)
  -- a new `*` replaces the one before: what that one absorbed need not change any more
  | c :: text, .anyRun :: tokens => matchFrom (some (tokens, c :: text)) tokens (c :: text)
  | c :: text, tokens =>
    match tokens with
    | token :: tokens =>
      if token.accepts c then matchFrom retry tokens text
      else
        match retry with
        | some (behind, _ :: absorbed) => matchFrom (some (behind, absorbed)) behind absorbed
        | _ => false
    | [] =>
      match retry with
      | some (behind, _ :: absorbed) => matchFrom (some (behind, absorbed)) behind absorbed
      | _ => false
termination_by (retry.reach text.length, text.length + tokens.length)
decreasing_by
  -- going back shortens the text that the latest `*` began with; all else keeps it
  · cases retry with
    | none => exact Prod.Lex.left _ _ (by simp [Retry.reach])
    | some r =>
      simp only [Retry.reach, Nat.max_self]
      rcases Nat.lt_or_ge (List.length (c :: text)) (List.length r.2) with hlt | hge
      · exact Prod.Lex.left _ _ (by omega)
      · have heq : max (List.length r.2) (List.length (c :: text)) = List.length (c :: text) := by
          omega
        rw [heq]
        exact Prod.Lex.right _ (by simp)
  · cases retry with
    | none => exact Prod.Lex.left _ _ (by simp [Retry.reach])
    | some r =>
      simp only [Retry.reach, List.length_cons]
      rcases Nat.lt_or_ge (max r.2.length text.length) (max r.2.length (text.length + 1)) with
        hlt | hge
      · exact Prod.Lex.left _ _ hlt
      · have heq : max r.2.length text.length = max r.2.length (text.length + 1) := by omega
        rw [heq]
        exact Prod.Lex.right _ (by omega)
  · exact Prod.Lex.left _ _ (by simp only [Retry.reach, List.length_cons]; omega)
  · exact Prod.Lex.left _ _ (by simp only [Retry.reach, List.length_cons]; omega)

/-- The tokens take the whole text. -/
def matchesAll (tokens : List Token) (text : List Char) : Bool :=
  matchFrom none tokens text

end TreeArchive.Glob
