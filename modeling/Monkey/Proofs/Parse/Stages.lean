import Monkey.Proofs.Parse.Levels

/-!
# Stages of reading

Much that holds of all rules has nothing to do with how deep blocks are nested, and a brace is to it a token like any
other. Then there is one level only (`Rule.Stages.levels`), and fewer conditions have to be met: `Rule.Stages` says what
holds of a parser at each stage of reading, with a condition for each step from one to the next.
-/

namespace Monkey

namespace Rule

/-- What holds of a parser at each stage, with a condition for each step. -/
structure Stages where
  /-- Before a statement or the end of a list of statements. -/
  between : Parser → Prop
  /-- The current token is still to be looked at, by a rule that is entered for it; there may be `k` of them. -/
  pending : Nat → Parser → Prop
  /-- The current token has been looked at, and it stands in the text; `k` rules may still be entered for it. -/
  held : Nat → Parser → Prop
  /-- The current token is done with. -/
  done : Parser → Prop
  -- Lists of statements.
  begins {p} : between p → p.current.kind ≠ .eof → pending 3 p
  ended {p} : between p → p.current.kind = .eof → done p
  unclosed {p} : between p → p.current.kind = .eof → done (reporting p (.unexpected .rbrace .eof) p.current)
  resumed {p} : done p → between p.advance
  -- A token that is looked at.
  enters {k p} : pending (k + 1) p → pending k (entering p)
  looked {k p} : pending k p → p.current.kind.isSound → held 0 p
  numeral {p} : pending 0 p → p.current.kind = .int → Leads done integer p
  noExpression {p} : pending 0 p → p.current.kind ≠ .int →
    done (reporting p (.noExpression p.current.kind) p.current)
  -- A token that has been looked at.
  takes {k p} : held (k + 1) p → held k (entering p)
  releases {k p} : held k p → done p
  goesOn {k p} : held k p → pending 2 p.advance
  -- The token behind one that is done with.
  moves {p} : done p → p.next.kind.isSound → held 1 p.advance
  unexpected {p} (kind : TokenKind) : done p → done (reporting p (.unexpected kind p.next.kind) p.next)

namespace Stages

/-- Where the level does not matter, a block begins behind a token that is looked at, and ends with one. -/
def levels (S : Stages) : Levels Unit where
  inner := id
  between _ := S.between
  pending _ := S.pending
  held _ := S.held
  done _ := S.done
  begins := S.begins
  ended := S.ended
  resumed := S.resumed
  opens hp hk := S.resumed (S.releases (S.takes (S.moves hp (by rw [hk]; rfl))))
  closes hp hk := S.releases (S.looked (S.begins hp (by rw [hk]; decide)) (by rw [hk]; rfl))
  unclosed := S.unclosed
  enters := S.enters
  looked hp hk := S.looked hp (TokenKind.isSound_of_isPlain hk)
  numeral := S.numeral
  noExpression := S.noExpression
  takes := S.takes
  releases := S.releases
  goesOn := S.goesOn
  moves hp hk := S.moves hp (TokenKind.isSound_of_isPlain hk)
  unexpected := S.unexpected

variable (S : Stages)

/-- **Every rule leads from the stage at which it begins to the one at which it ends.** -/
theorem all (n : Nat) : S.levels.Led n :=
  S.levels.all n

/-- A program is read to the end of its text. -/
theorem programStatements {n : Nat} {p q : Parser} {ss : List Node} (hp : S.between p)
    (h : programStatements n p = .ok ss q) : S.done q ∧ q.current.kind = .eof :=
  S.levels.programStatements (i := ()) hp h

theorem leads_programStatements {n : Nat} {p : Parser} (hp : S.between p) :
    Leads S.done (Rule.programStatements n) p :=
  ⟨fun h => (S.programStatements hp h).1, fun h => absurd h (persists_programStatements _ _ _)⟩

end Stages

end Rule

end Monkey
