import Dp4c.BuildSymtable.Program

/-! # What the pass reports

Whether the pass reports a name, and whether it comes to an end, is read off the declarations of
a program, if no scope inside of it is closed with several symbols of one name. -/
namespace Dp4c.BuildSymtable

open Dp4c.Symtable
open Dp4c.Parse (ParserTable)

/-- The pass ends with an error about a name that is declared already. -/
def Redeclares (r : Except Exit Scopes) : Prop :=
  ∃ name lineNr, r = .error (redeclaredExit name lineNr)

variable {r : Except Exit Scopes} {Q : Scopes → Prop} {trouble : Option Trouble} {items : List Item}

/-! ## Verdicts -/

theorem Verdict.redeclares_iff (h : Verdict r Q trouble) (hover : trouble ≠ some .overloaded) :
    Redeclares r ↔ ∃ name lineNr, trouble = some (.redeclared name lineNr) := by
  cases trouble with
  | none =>
    obtain ⟨t, rfl, -⟩ := h
    exact iff_of_false (fun ⟨_, _, h⟩ => by cases h) fun ⟨_, _, h⟩ => by cases h
  | some trouble =>
    cases trouble with
    | redeclared name lineNr =>
      obtain rfl : r = _ := h
      exact iff_of_true ⟨name, lineNr, rfl⟩ ⟨name, lineNr, rfl⟩
    | unlisted =>
      obtain rfl : r = _ := h
      exact iff_of_false (fun ⟨_, _, h⟩ => by cases h) fun ⟨_, _, h⟩ => by cases h
    | overloaded => exact absurd rfl hover

/-- What is reported is declared twice; the rest is up to the names that are forgotten. -/
theorem Verdict.reports_iff (h : Verdict r Q (troubleIn [] items))
    (hlisted : allListed items = true) (hover : troubleIn [] items ≠ some .overloaded) :
    (Redeclares r ↔ clashesIn [] items = true) ↔
      (clashesIn [] items = true → troubleIn [] items ≠ none) := by
  rw [h.redeclares_iff hover]
  cases htrouble : troubleIn [] items with
  | none =>
    have hnone : ¬ ∃ name lineNr, (none : Option Trouble) = some (.redeclared name lineNr) :=
      fun ⟨_, _, h⟩ => by cases h
    exact ⟨fun h hclash => absurd (h.mpr hclash) hnone,
      fun h => iff_of_false hnone fun hclash => h hclash rfl⟩
  | some trouble =>
    cases trouble with
    | redeclared name lineNr =>
      have hclash := clashesIn_of_redeclared items htrouble
      exact iff_of_true (iff_of_true ⟨name, lineNr, rfl⟩ hclash) fun _ h => by cases h
    | unlisted => exact absurd htrouble (not_unlisted items hlisted)
    | overloaded => exact absurd htrouble hover

/-! ## Parsed programs -/

section

variable {first : Token} {tokens : List Token} {scopes : Scopes} {memory : Parse.Memory}
  {rounds fuel : Nat} {a : Ast} {u : Parse.State} {s : State}

/-- **A name is reported** exactly if it is declared twice, unless it was forgotten. -/
theorem parsed_reports_iff (hfirst : first.klass ≠ .comment) (htable : ParserTable scopes)
    (hworded : Worded tokens) (hrun : Parse.run rounds (first :: tokens) scopes memory = .ok (a, u))
    (hfew : FewNames a) (hs : Inv s) (hfuel : a.nodes.length ≤ fuel)
    (hlisted : allListed (programItems a) = true)
    (hover : troubleIn [] (programItems a) ≠ some .overloaded) :
    (Redeclares (tableAfter (buildSymtable fuel a s)) ↔ clashesIn [] (programItems a) = true) ↔
      (clashesIn [] (programItems a) = true → troubleIn [] (programItems a) ≠ none) := by
  rw [parsed_refines hfirst htable hworded hrun hfew hs hfuel]
  exact (runProgram_verdict a).reports_iff hlisted hover

end

/-! ## Fields, structs and an exit -/

/-- `struct s { bool b; bool b; }` -/
def fieldsTwice : List Token := Parse.tokensOf
  [(.struct, "struct"), (.identifier, "s"), (.braceOpen, "\x7b"), (.bool, "bool"),
    (.identifier, "b"), (.semicolon, ";"), (.bool, "bool"), (.identifier, "b"), (.semicolon, ";"),
    (.braceClose, "\x7d"), (.endOfInput, "<end-of-input>")]

theorem parsed_reports_fields : ∃ a s, clashesIn [] (programItems a) = true ∧
    Redeclares (tableAfter (buildSymtable a.nodes.length a s)) := by
  have htokens : (parseTokens fieldsTwice).map (fun r => (clashesIn [] (programItems r.1),
      allListed (programItems r.1), decide (FewNames r.1 ∧ troubleIn [] (programItems r.1) ≠ none ∧
        troubleIn [] (programItems r.1) ≠ some .overloaded))) = some (true, true, true) := by
    decide +kernel
  obtain ⟨t, a, u, hinit, hrun, hx⟩ := parseTokens_ok htokens
  obtain ⟨hclash, hx⟩ := Prod.mk.inj hx
  obtain ⟨hlisted, htrouble⟩ := Prod.mk.inj hx
  obtain ⟨hfew, hnone, hover⟩ := of_decide_eq_true htrouble
  obtain ⟨s, hs⟩ := exists_table blank_initial
  have hreports := (parsed_reports_iff (by decide) (.init hinit) (by decide +kernel) hrun hfew hs
    (Nat.le_refl _) hlisted hover).mpr fun _ => hnone
  exact ⟨a, s, hclash, hreports.mpr hclash⟩

/-- The name of a struct is forgotten behind its fields. -/
theorem parsed_reports_fails : ∃ a s, allListed (programItems a) = true ∧
    ¬ (Redeclares (tableAfter (buildSymtable a.nodes.length a s)) ↔
      clashesIn [] (programItems a) = true) := by
  have htokens : (parseTokens (structs "s" "s")).map (fun r => (clashesIn [] (programItems r.1),
      allListed (programItems r.1),
      decide (FewNames r.1 ∧ troubleIn [] (programItems r.1) = none))) =
        some (true, true, true) := by decide +kernel
  obtain ⟨t, a, u, hinit, hrun, hx⟩ := parseTokens_ok htokens
  obtain ⟨hclash, hx⟩ := Prod.mk.inj hx
  obtain ⟨hlisted, htrouble⟩ := Prod.mk.inj hx
  obtain ⟨hfew, hnone⟩ := of_decide_eq_true htrouble
  have hverdict := runProgram_verdict a
  obtain ⟨s, hs⟩ := exists_table blank_initial
  rw [hnone, ← parsed_refines (by decide) (.init hinit) (by decide +kernel) hrun hfew hs
    (Nat.le_refl _)] at hverdict
  obtain ⟨v, hv, -⟩ := hverdict
  refine ⟨a, s, hlisted, fun h => ?_⟩
  obtain ⟨name, lineNr, hredeclares⟩ := h.mpr hclash
  rw [hv] at hredeclares
  cases hredeclares

end Dp4c.BuildSymtable
