import StackLexer.Regex.Bounds
import StackLexer.Regex.Parser

/-!
# A library for small patterns

The patterns read by `Pattern.parse?`, matched by backtracking, as a `Library`. It is there to be
run. Patterns of larger languages have look-behind, references to groups, flags inside a pattern and
named classes; these are refused here. It never gives up a search, and it does not say what is wrong
with a pattern.
-/

namespace StackLexer

/-- A match as it is reported. -/
def Match.report (m : Match) : Report :=
  ⟨m.length, m.groups.map (Option.map fun a => (a.start, a.length))⟩

@[simp] theorem Match.toMatch_report (m : Match) : m.report.toMatch = m := by
  obtain ⟨length, groups⟩ := m
  simp only [report, Report.toMatch, List.map_map, Int.toNat_natCast, Match.mk.injEq, true_and]
  conv => rhs; rw [← List.map_id groups]
  refine List.map_congr_left fun group _ => ?_
  cases group <;> rfl

namespace Pattern

variable {p : Pattern}

/-- What is found at a place is reported. -/
def answerAt (p : Pattern) (c : Cursor) : Answer Report :=
  match p.matchAt c.before c.rest with
  | some m => .found m.report
  | none => .missed

theorem within_of_answerAt {c : Cursor} {r : Report} (h : p.answerAt c = .found r) :
    r.Within c.rest.length := by
  rw [answerAt] at h
  split at h
  · next m hm =>
    cases h
    -- the groups that are reported are those of the match
    have hgroup : ∀ start length, some (start, length) ∈ m.report.groups →
        ∃ a : Span, some a ∈ m.groups ∧ start = a.start ∧ length = a.length := by
      intro start length hmem
      obtain ⟨group, hgroup, heq⟩ := List.mem_map.1 hmem
      obtain ⟨a, rfl, ha⟩ := Option.map_eq_some_iff.1 heq
      cases ha
      exact ⟨a, hgroup, rfl, rfl⟩
    refine ⟨Int.natCast_nonneg _, Int.ofNat_le.2 (matchAt_length_le hm), ?_, ?_, ?_⟩
    · intro start length hmem
      obtain ⟨a, -, rfl, -⟩ := hgroup start length hmem
      exact Int.natCast_nonneg _
    · intro start length hmem
      obtain ⟨a, -, -, rfl⟩ := hgroup start length hmem
      exact Int.natCast_nonneg _
    · intro start length hmem
      obtain ⟨a, ha, rfl, rfl⟩ := hgroup start length hmem
      exact_mod_cast group_le_of_matchAt hm ha
  · cases h

/-- A pattern as an expression. -/
def expression (p : Pattern) : Expression where
  searchAt := p.answerAt
  searchIn text := if p.occursIn text then .found () else .missed
  within _ _ := within_of_answerAt

@[simp] theorem matchAt_expression (p : Pattern) (c : Cursor) :
    p.expression.matchAt c = p.matchAt c.before c.rest := by
  simp only [Expression.matchAt, expression, answerAt]
  cases p.matchAt c.before c.rest with
  | none => rfl
  | some m => exact congrArg some m.toMatch_report

/-- All that is said about a pattern that is refused. -/
def refusal : Bytes := bytes "<reason>"

end Pattern

/-- The library of small patterns. -/
def Regex.backtracking : Library where
  read ignoreCase pattern :=
    match Pattern.parse? ignoreCase pattern with
    | some p => .ok p.expression
    | none => .error Pattern.refusal

end StackLexer
