import WordFields.Toml.Statement

/-!
# The steps of the readers

A reader of values, of statements or of their parts takes one of a few steps, and what it finds
decides which. The steps are said once, in both directions: what holds of all that is read follows
from one case for each step, and so does what a reader makes of another text on which it takes the
same step.
-/

set_option autoImplicit false

namespace WordFields.Toml

/-- How a value is read; its parts are read with a smaller bound. -/
inductive ValueStep (bound : Nat) : List Token → Node → List Token → Prop
  | array {rest left : List Token} {items : List Node}
      (areItems : itemsWithin bound rest = some (items, left)) :
      ValueStep bound (.openBracket :: rest) (.array items) left
  | emptyTable {rest left : List Token} (closed : skipBlank rest = .closeBrace :: left) :
      ValueStep bound (.openBrace :: rest) (.table .closed []) left
  | table {rest left : List Token} {members : List (String × Node)}
      (opened : ∀ behind, skipBlank rest ≠ .closeBrace :: behind)
      (areMembers : membersWithin bound [] (skipBlank rest) = some (members, left)) :
      ValueStep bound (.openBrace :: rest) (.table .closed members) left
  | scalar {first : Token} {rest : List Token} {node : Node} {used : Nat}
      (isScalar : scalar first rest = some (node, used)) :
      ValueStep bound (first :: rest) node (rest.drop used)

/-- How items of an array are read. -/
inductive ItemsStep (bound : Nat) (ts : List Token) : List Node → List Token → Prop
  | none {left : List Token} (closed : skipLines ts = .closeBracket :: left) :
      ItemsStep bound ts [] left
  | last {item : Node} {behind left : List Token}
      (opened : ∀ behind, skipLines ts ≠ .closeBracket :: behind)
      (isItem : valueWithin bound (skipLines ts) = some (item, behind))
      (closed : skipLines behind = .closeBracket :: left) : ItemsStep bound ts [item] left
  | more {item : Node} {items : List Node} {behind more left : List Token}
      (opened : ∀ behind, skipLines ts ≠ .closeBracket :: behind)
      (isItem : valueWithin bound (skipLines ts) = some (item, behind))
      (comma : skipLines behind = .comma :: more)
      (areItems : itemsWithin bound more = some (items, left)) :
      ItemsStep bound ts (item :: items) left

/-- How members of an inline table are read, behind the entries that it has. -/
inductive MembersStep (bound : Nat) (entries : List (String × Node)) (ts : List Token) :
    List (String × Node) → List Token → Prop
  | last {path : List String} {rest behind left : List Token} {node : Node}
      {grown : List (String × Node)} (isPath : keyPath ts = some (path, .equals :: rest))
      (isValue : valueWithin bound (skipBlank rest) = some (node, behind))
      (inserted : insertPath node path entries = some grown)
      (closed : skipBlank behind = .closeBrace :: left) : MembersStep bound entries ts grown left
  | more {path : List String} {rest behind more left : List Token} {node : Node}
      {grown members : List (String × Node)} (isPath : keyPath ts = some (path, .equals :: rest))
      (isValue : valueWithin bound (skipBlank rest) = some (node, behind))
      (inserted : insertPath node path entries = some grown)
      (comma : skipBlank behind = .comma :: more)
      (areMembers : membersWithin bound grown more = some (members, left)) :
      MembersStep bound entries ts members left

/-- How a statement is read. -/
inductive StatementStep : List Token → Statement → List Token → Prop
  | element {rest left : List Token} {path : List String}
      (isPath : keyPath rest = some (path, .closeBracket :: .closeBracket :: left)) :
      StatementStep (.openBracket :: .openBracket :: rest) (.header ⟨path, true⟩) left
  | header {rest left : List Token} {path : List String}
      (isPath : keyPath rest = some (path, .closeBracket :: left)) :
      StatementStep (.openBracket :: rest) (.header ⟨path, false⟩) left
  | pair {ts rest left : List Token} {path : List String} {node : Node}
      (isPath : keyPath ts = some (path, .equals :: rest))
      (isValue : value (skipBlank rest) = some (node, left)) :
      StatementStep ts (.pair path node) left

/-- How the statements of a text are read. -/
inductive StatementsStep (bound : Nat) (ts : List Token) : List Statement → Prop
  | none (nothing : skipLines ts = []) : StatementsStep bound ts []
  | last {st : Statement} {left : List Token}
      (isStatement : statement (skipLines ts) = some (st, left))
      (nothing : skipBlank left = []) : StatementsStep bound ts [st]
  | more {st : Statement} {sts : List Statement} {left more : List Token}
      (isStatement : statement (skipLines ts) = some (st, left))
      (newline : skipBlank left = .newline :: more)
      (areStatements : statementsWithin bound more = some sts) : StatementsStep bound ts (st :: sts)

variable {bound : Nat} {ts left : List Token}

theorem valueWithin_eq_some_iff {node : Node} :
    valueWithin (bound + 1) ts = some (node, left) ↔ ValueStep bound ts node left := by
  constructor
  · intro read
    unfold valueWithin at read
    split at read
    next => cases read
    next => cases read
    next _ rest same =>
      cases same
      obtain ⟨⟨items, behind⟩, areItems, same⟩ := Option.bind_eq_some_iff.1 read
      cases same
      exact .array areItems
    next _ rest same =>
      cases same
      split at read
      next closed =>
        cases read
        exact .emptyTable closed
      next opened =>
        obtain ⟨⟨members, behind⟩, areMembers, same⟩ := Option.bind_eq_some_iff.1 read
        cases same
        exact .table opened areMembers
    next _ first rest _ _ same =>
      cases same
      obtain ⟨⟨found, used⟩, isScalar, same⟩ := Option.bind_eq_some_iff.1 read
      cases same
      exact .scalar isScalar
  · intro step
    cases step with
    | array areItems =>
      rw [valueWithin, areItems]
      rfl
    | emptyTable closed => rw [valueWithin, closed]
    | table opened areMembers =>
      rw [valueWithin]
      split
      next closed => exact absurd closed (opened _)
      next =>
        rw [areMembers]
        rfl
    | scalar isScalar =>
      rw [valueWithin, isScalar]
      · rfl
      all_goals
        rintro rfl
        cases isScalar

theorem itemsWithin_eq_some_iff {items : List Node} :
    itemsWithin (bound + 1) ts = some (items, left) ↔ ItemsStep bound ts items left := by
  constructor
  · intro read
    unfold itemsWithin at read
    split at read
    next closed =>
      cases read
      exact .none closed
    next opened =>
      obtain ⟨⟨item, behind⟩, isItem, read⟩ := Option.bind_eq_some_iff.1 read
      dsimp only at read
      split at read
      next comma =>
        obtain ⟨⟨others, last⟩, areItems, same⟩ := Option.bind_eq_some_iff.1 read
        cases same
        exact .more opened isItem comma areItems
      next closed =>
        cases read
        exact .last opened isItem closed
      next => cases read
  · intro step
    rw [itemsWithin]
    cases step with
    | none closed => rw [closed]
    | last opened isItem closed =>
      split
      next now => exact absurd now (opened _)
      next => simp only [isItem, Option.bind_eq_bind, Option.bind_some, closed]
    | more opened isItem comma areItems =>
      split
      next now => exact absurd now (opened _)
      next => simp only [isItem, Option.bind_eq_bind, Option.bind_some, comma, areItems]

theorem membersWithin_eq_some_iff {entries members : List (String × Node)} :
    membersWithin (bound + 1) entries ts = some (members, left) ↔
      MembersStep bound entries ts members left := by
  constructor
  · intro read
    unfold membersWithin at read
    obtain ⟨⟨path, rest⟩, isPath, read⟩ := Option.bind_eq_some_iff.1 read
    dsimp only at read
    split at read
    next =>
      obtain ⟨⟨node, behind⟩, isValue, read⟩ := Option.bind_eq_some_iff.1 read
      obtain ⟨grown, inserted, read⟩ := Option.bind_eq_some_iff.1 read
      dsimp only at read
      split at read
      next closed =>
        cases read
        exact .last isPath isValue inserted closed
      next comma => exact .more isPath isValue inserted comma read
      next => cases read
    next => cases read
  · intro step
    rw [membersWithin]
    cases step with
    | last isPath isValue inserted closed =>
      simp only [isPath, isValue, inserted, Option.bind_eq_bind, Option.bind_some, closed]
    | more isPath isValue inserted comma areMembers =>
      simp only [isPath, isValue, inserted, Option.bind_eq_bind, Option.bind_some, comma,
        areMembers]

theorem statement_eq_some_iff {st : Statement} :
    statement ts = some (st, left) ↔ StatementStep ts st left := by
  constructor
  · intro read
    unfold statement at read
    split at read
    next rest =>
      obtain ⟨⟨path, behind⟩, isPath, read⟩ := Option.bind_eq_some_iff.1 read
      split at read
      next same =>
        cases same
        cases read
        exact .element isPath
      next => cases read
    next rest _ =>
      obtain ⟨⟨path, behind⟩, isPath, read⟩ := Option.bind_eq_some_iff.1 read
      split at read
      next same =>
        cases same
        cases read
        exact .header isPath
      next => cases read
    next =>
      obtain ⟨⟨path, behind⟩, isPath, read⟩ := Option.bind_eq_some_iff.1 read
      split at read
      next same =>
        cases same
        obtain ⟨⟨node, last⟩, isValue, same⟩ := Option.bind_eq_some_iff.1 read
        cases same
        exact .pair isPath isValue
      next => cases read
  · -- no key starts with a bracket, so the cases of the reader do not overlap
    have noKey (rest : List Token) : keyPath (.openBracket :: rest) = none := by
      simp [keyPath, key?]
    intro step
    cases step with
    | element isPath =>
      rw [statement, isPath]
      rfl
    | header isPath =>
      rw [statement, isPath]
      · rfl
      · rintro rest rfl
        cases (noKey rest).symm.trans isPath
    | pair isPath isValue =>
      rw [statement]
      · simp only [isPath, isValue, Option.bind_eq_bind, Option.bind_some]
      all_goals
        rintro rest rfl
        cases (noKey _).symm.trans isPath

theorem statementsWithin_eq_some_iff {sts : List Statement} :
    statementsWithin (bound + 1) ts = some sts ↔ StatementsStep bound ts sts := by
  constructor
  · intro read
    unfold statementsWithin at read
    split at read
    next nothing =>
      cases read
      exact .none nothing
    next =>
      obtain ⟨⟨st, left⟩, isStatement, read⟩ := Option.bind_eq_some_iff.1 read
      dsimp only at read
      split at read
      next nothing =>
        cases read
        exact .last isStatement nothing
      next newline =>
        obtain ⟨others, areStatements, same⟩ := Option.bind_eq_some_iff.1 read
        cases same
        exact .more isStatement newline areStatements
      next => cases read
  · -- nothing is no statement
    have present {st : Statement} {left : List Token}
        (isStatement : statement (skipLines ts) = some (st, left)) : skipLines ts ≠ [] := by
      intro nothing
      rw [nothing] at isStatement
      cases isStatement
    intro step
    rw [statementsWithin]
    cases step with
    | none nothing => rw [nothing]
    | last isStatement nothing =>
      split
      next now => exact absurd now (present isStatement)
      next => simp only [isStatement, Option.bind_eq_bind, Option.bind_some, nothing]
    | more isStatement newline areStatements =>
      split
      next now => exact absurd now (present isStatement)
      next => simp only [isStatement, Option.bind_eq_bind, Option.bind_some, newline, areStatements]

end WordFields.Toml
