import Antfly.Foreign.FilterSQL

/-!
The clause that the code writes, and the arguments that it collects, are those of the expression of
the filter.  An expression has a text that is not empty, so an empty clause is the clause of a
filter without an expression.
-/

namespace Antfly.Foreign

open List

section Print

variable {renderValue : RenderValue}

theorem joinText_ne_nil {sep part : Text} (hpart : part ≠ []) (parts : List Text) :
    joinText sep (part :: parts) ≠ [] := by
  cases parts with
  | nil => exact hpart
  | cons next parts =>
    rw [joinText, append_assoc]
    exact append_ne_nil_of_left_ne_nil hpart _

theorem SqlExpr.print_ne_nil :
    (e : SqlExpr) → (args : List FilterValue) → (e.print renderValue args).2 ≠ []
  | .false, _ => cons_ne_nil _ _
  | .compare _ _ _, _ => cons_ne_nil _ _
  | .like _ _, _ => cons_ne_nil _ _
  | .isIn _ _ _, _ => cons_ne_nil _ _
  | .all first _, args => joinText_ne_nil (SqlExpr.print_ne_nil first args) _
  | .any first _, args => joinText_ne_nil (SqlExpr.print_ne_nil first args) _
  | .not _, _ => cons_ne_nil _ _
  | .paren _, _ => cons_ne_nil _ _

def printClause (renderValue : RenderValue) (args : List FilterValue) :
    Option SqlExpr → List FilterValue × Text
  | none => (args, [])
  | some e => e.print renderValue args

theorem printAll_append (es es' : List SqlExpr) (args : List FilterValue) :
    printAll renderValue (es ++ es') args =
      ((printAll renderValue es' (printAll renderValue es args).1).1,
        (printAll renderValue es args).2 ++
          (printAll renderValue es' (printAll renderValue es args).1).2) := by
  induction es generalizing args with
  | nil => rfl
  | cons e es ih =>
    rw [cons_append, printAll, printAll]
    dsimp only
    rw [ih]
    rfl

theorem printClause_allOf (es : List SqlExpr) (args : List FilterValue) :
    printClause renderValue args (allOf es) =
      ((printAll renderValue es args).1,
        joinText " AND ".toList (printAll renderValue es args).2) := by
  cases es with
  | nil => rfl
  | cons e es => rfl

theorem printAll_anyOf (es : List SqlExpr) (args : List FilterValue) :
    printAll renderValue (anyOf es) args =
      ((printAll renderValue es args).1,
        if (printAll renderValue es args).2 = [] then []
        else [parenthesize (joinText " OR ".toList (printAll renderValue es args).2)]) := by
  cases es with
  | nil => rfl
  | cons e es =>
    have hne : (printAll renderValue (e :: es) args).2 ≠ [] := cons_ne_nil _ _
    rw [if_neg hne]
    rfl

theorem print_equal (field text : Text) :
    pgQuoteIdentifier field ++ " ".toList ++ SqlOperator.equal.text ++ " ".toList ++ text =
      pgQuoteIdentifier field ++ " = ".toList ++ text := by
  rw [append_assoc (pgQuoteIdentifier field), append_assoc (pgQuoteIdentifier field)]
  rfl

theorem renderValues_terms (terms : List QueryTerm) (args : List FilterValue) :
    printAll renderValue
        (terms.map fun t => .compare t.field .equal (.text t.value)) args =
      ((renderValues renderValue args (terms.map fun t => .text t.value)).1,
        List.zipWith (fun (t : QueryTerm) text =>
          pgQuoteIdentifier t.field ++ " = ".toList ++ text) terms
          (renderValues renderValue args (terms.map fun t => .text t.value)).2) := by
  induction terms generalizing args with
  | nil => rfl
  | cons t terms ih =>
    rw [map_cons, map_cons, printAll, renderValues]
    dsimp only
    rw [ih, zipWith_cons_cons, SqlExpr.print]
    dsimp only
    rw [print_equal]

end Print

section Text

variable {knownColumns : List Text} {renderValue : RenderValue}

theorem equalityToSQL_eq (field : Text) (value : FilterValue) (args : List FilterValue) :
    equalityToSQL knownColumns renderValue field value args =
      (do validateField knownColumns field
          return some (SqlExpr.compare field .equal value) :
        Except FilterSQLError (Option SqlExpr)).map (printClause renderValue args) := by
  unfold equalityToSQL
  cases validateField knownColumns field with
  | error err => rfl
  | ok u =>
    change Except.ok ((renderValue args value).1, _) =
      Except.ok (SqlExpr.print renderValue (.compare field .equal value) args)
    rw [SqlExpr.print]
    dsimp only
    rw [print_equal]

theorem likeToSQL_eq (field like : Text) (args : List FilterValue) :
    likeToSQL knownColumns renderValue field like args =
      (do validateField knownColumns field
          return some (SqlExpr.like field like) :
        Except FilterSQLError (Option SqlExpr)).map (printClause renderValue args) := by
  unfold likeToSQL
  cases validateField knownColumns field with
  | error err => rfl
  | ok u => rfl

theorem boundToSQL_eq (field : Text) (op : SqlOperator) (bound : FilterValue)
    (args : List FilterValue) :
    boundToSQL renderValue field op.text bound args =
      printAll renderValue (boundClause field op bound) args := by
  cases bound <;> rfl

theorem rangeToSQL_eq (field : Text) (min max : FilterValue) (inclusiveMin inclusiveMax : Bool)
    (args : List FilterValue) :
    rangeToSQL knownColumns renderValue field min max inclusiveMin inclusiveMax args =
      (clauseOf knownColumns (.rangeNode field min max inclusiveMin inclusiveMax)).map
        (printClause renderValue args) := by
  have hmin : (if inclusiveMin = true then ">=".toList else ">".toList) =
      (if inclusiveMin = true then SqlOperator.greaterEqual else .greater).text := by
    cases inclusiveMin <;> rfl
  have hmax : (if inclusiveMax = true then "<=".toList else "<".toList) =
      (if inclusiveMax = true then SqlOperator.lessEqual else .less).text := by
    cases inclusiveMax <;> rfl
  rw [rangeToSQL, clauseOf, hmin, hmax]
  cases validateField knownColumns field with
  | error err => rfl
  | ok u =>
    have hbound := @boundToSQL_eq renderValue field
    change Except.ok
      ((boundToSQL renderValue field _ max (boundToSQL renderValue field _ min args).1).1,
        joinText " AND ".toList ((boundToSQL renderValue field _ min args).2 ++
          (boundToSQL renderValue field _ max (boundToSQL renderValue field _ min args).1).2)) =
      Except.ok (printClause renderValue args (allOf _))
    rw [printClause_allOf, printAll_append, hbound, hbound]

theorem queryStringToSQL_eq (terms : List QueryTerm) (args : List FilterValue) :
    queryStringToSQL knownColumns renderValue terms args =
      (queryStringClause knownColumns terms).map (printClause renderValue args) := by
  cases terms with
  | nil => rfl
  | cons first rest =>
    unfold queryStringToSQL queryStringClause
    dsimp only
    cases (first :: rest).mapM fun t => validateField knownColumns t.field with
    | error err => rfl
    | ok us =>
      have hparts := @renderValues_terms renderValue (first :: rest) args
      rw [map_cons] at hparts
      by_cases hsame : rest.all (fun t => t.field = first.field) ∧ rest ≠ []
      · change (if rest.all (fun t => t.field = first.field) ∧ rest ≠ [] then _ else _) =
          Except.map _ (if rest.all (fun t => t.field = first.field) ∧ rest ≠ [] then _ else _)
        rw [if_pos hsame, if_pos hsame]
        rfl
      · change (if rest.all (fun t => t.field = first.field) ∧ rest ≠ [] then _ else _) =
          Except.map _ (if rest.all (fun t => t.field = first.field) ∧ rest ≠ [] then _ else _)
        rw [if_neg hsame, if_neg hsame]
        by_cases hone : rest = []
        · subst hone
          refine congrArg Except.ok ?_
          change (_, joinText [] (List.zipWith _ _ _)) =
            SqlExpr.print renderValue (.compare first.field .equal (.text first.value)) args
          have hfirst : SqlExpr.print renderValue
              (.compare first.field .equal (.text first.value)) args =
              ((printAll renderValue [.compare first.field .equal (.text first.value)] args).1,
                joinText [] (printAll renderValue
                  [.compare first.field .equal (.text first.value)] args).2) := rfl
          rw [hfirst]
          rw [map_nil] at hparts
          rw [hparts]
        · rw [if_neg hone, if_neg hone]
          refine congrArg Except.ok ?_
          change (_, parenthesize (joinText " OR ".toList (List.zipWith _ _ _))) =
            ((printAll renderValue (.compare first.field .equal (.text first.value) ::
                rest.map fun t => .compare t.field .equal (.text t.value)) args).1,
              parenthesize (joinText " OR ".toList (printAll renderValue
                (.compare first.field .equal (.text first.value) ::
                  rest.map fun t => .compare t.field .equal (.text t.value)) args).2))
          rw [hparts]

mutual

theorem nodeToSQL_eq : (f : FilterNode) → (args : List FilterValue) →
    nodeToSQL knownColumns renderValue f args =
      (clauseOf knownColumns f).map (printClause renderValue args)
  | .matchAllNode, _ => rfl
  | .matchNoneNode, _ => rfl
  | .termNode field value, args => equalityToSQL_eq field value args
  | .matchNode field value, args => equalityToSQL_eq field (.text value) args
  | .prefixNode field _, args => likeToSQL_eq field _ args
  | .wildcardNode field _, args => likeToSQL_eq field _ args
  | .rangeNode field min max inclusiveMin inclusiveMax, args =>
    rangeToSQL_eq field min max inclusiveMin inclusiveMax args
  | .queryStringNode terms, args => queryStringToSQL_eq terms args
  | .boolNode conjuncts disjuncts mustNot, args => by
      have hconjuncts := clausesToSQL_eq conjuncts
      have hdisjuncts := clausesToSQL_eq disjuncts
      have hnot := mustNotToSQL_eq mustNot
      rw [nodeToSQL, clauseOf, hconjuncts]
      cases clausesOf knownColumns conjuncts with
      | error err => rfl
      | ok parts =>
        change (do let r ← clausesToSQL knownColumns renderValue disjuncts _; _) = _
        rw [hdisjuncts]
        cases clausesOf knownColumns disjuncts with
        | error err => rfl
        | ok orParts =>
          change (do let r ← mustNotToSQL knownColumns renderValue mustNot _; _) = _
          rw [hnot]
          cases mustNotOf knownColumns mustNot with
          | error err => rfl
          | ok notPart =>
            change Except.ok (_, joinText _ (_ ++ _ ++ _)) =
              Except.ok (printClause renderValue args (allOf _))
            rw [printClause_allOf, printAll_append, printAll_append, printAll_anyOf]

theorem clausesToSQL_eq : (fs : List FilterNode) → (args : List FilterValue) →
    clausesToSQL knownColumns renderValue fs args =
      (clausesOf knownColumns fs).map fun es => printAll renderValue es args
  | [], _ => rfl
  | f :: fs, args => by
      have hhead := nodeToSQL_eq f
      have htail := clausesToSQL_eq fs
      rw [clausesToSQL, clausesOf, hhead]
      cases clauseOf knownColumns f with
      | error err => rfl
      | ok clause =>
        change (do let r ← clausesToSQL knownColumns renderValue fs _; _) = _
        rw [htail]
        cases clausesOf knownColumns fs with
        | error err => rfl
        | ok es =>
          cases clause with
          | none => rfl
          | some e =>
            have hne := @SqlExpr.print_ne_nil renderValue e args
            change Except.ok (_, (if (e.print renderValue args).2 = [] then _ else _) ++ _) =
              Except.ok (printAll renderValue (.paren e :: es) args)
            rw [if_neg hne]
            rfl

theorem mustNotToSQL_eq : (m : Option FilterNode) → (args : List FilterValue) →
    mustNotToSQL knownColumns renderValue m args =
      (mustNotOf knownColumns m).map fun es => printAll renderValue es args
  | none, _ => rfl
  | some f, args => by
      have hhead := nodeToSQL_eq f
      rw [mustNotToSQL, mustNotOf, hhead]
      cases clauseOf knownColumns f with
      | error err => rfl
      | ok clause =>
        cases clause with
        | none => rfl
        | some e =>
          have hne := @SqlExpr.print_ne_nil renderValue e args
          change Except.ok (_, if (e.print renderValue args).2 = [] then _ else _) =
            Except.ok (printAll renderValue [.not (.paren e)] args)
          rw [if_neg hne]
          rfl

end

end Text

end Antfly.Foreign
