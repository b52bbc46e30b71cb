import StackLexer.Proofs.DirectiveMeaning

/-!
# How large merged counts get

One pop of a directive removes a million entries at most, but pops that follow one another become
one move, and nothing limits how many there are. The counts are kept in words of 32 bits with a
sign, so the question is which directives add up to more than fits.

* `Directive.RunsWithin` — pops that follow one another stay within a bound together. Seen from the
  end of what was read so far this is a running total (`Directive.trailing`), and
  `Directive.runsWithin_iff_trailing` makes the two the same;
* `Directive.Tops` — the invariant of the merging: the running total is the count of the latest
  move, as long as that is a pop (`Directive.tops_merged`);
* `Directive.runsWithin_iff_popsWithin` — so a bound on the runs is a bound on all counts that come
  up, the latest and the earlier ones;
* `Directive.runsWithin_iff_not_overflows` — and sums leave the words exactly when a run does not
  fit;
* `Directive.counts_fit_iff` — the directives with counts that fit, and `Directive.flood_overflows`,
  the shortest row of the largest pops that does not.
-/

namespace StackLexer.Directive

/-! ## Runs of pops -/

/-- Whether a part is a pop. -/
def Part.isPop : Part → Bool
  | .pop _ => true
  | .pushSame => false
  | .push _ => false

/-- Pops that follow one another remove at most `bound` entries together. -/
def RunsWithin (bound : Nat) (parts : List Part) : Prop :=
  ∀ run, run <:+: parts → (∀ p ∈ run, p.isPop = true) → removes run ≤ bound

/-- A part after pops that remove `total` entries together: another pop adds to them, anything else
ends them. -/
def Part.extend (total : Nat) : Part → Nat
  | .pop count => total + count
  | .pushSame => 0
  | .push _ => 0

theorem Part.add_removes_le {p : Part} {total bound : Nat} (htotal : total ≤ bound)
    (hextend : p.extend total ≤ bound) : total + p.removes ≤ bound := by
  cases p with
  | pop count => exact hextend
  | pushSame => exact htotal
  | push state => exact htotal

/-- How many entries the pops at the end remove together. -/
def trailing (parts : List Part) : Nat := parts.foldl Part.extend 0

theorem trailing_concat (parts : List Part) (p : Part) :
    trailing (parts ++ [p]) = p.extend (trailing parts) := List.foldl_concat ..

/-- The running total is that of a run at the end. -/
theorem exists_run_trailing (parts : List Part) :
    ∃ run, run <:+ parts ∧ (∀ p ∈ run, p.isPop = true) ∧ removes run = trailing parts := by
  induction parts using List.reverseRecOn with
  | nil => exact ⟨[], List.suffix_refl [], fun p hp => absurd hp List.not_mem_nil, rfl⟩
  | append_singleton parts p ih =>
    rw [trailing_concat]
    cases p with
    | pop count =>
      obtain ⟨run, hsuffix, hpops, htotal⟩ := ih
      refine ⟨run ++ [.pop count], List.suffix_append_self_iff.2 hsuffix, ?_, ?_⟩
      · simpa [or_imp, forall_and, Part.isPop] using hpops
      · rw [removes_concat, htotal]
        rfl
    | pushSame => exact ⟨[], List.nil_suffix, fun p hp => absurd hp List.not_mem_nil, rfl⟩
    | push state => exact ⟨[], List.nil_suffix, fun p hp => absurd hp List.not_mem_nil, rfl⟩

/-- Pops at the end add to the running total. -/
theorem trailing_append (parts : List Part) {run : List Part} (hpops : ∀ p ∈ run, p.isPop = true) :
    trailing (parts ++ run) = trailing parts + removes run := by
  induction run using List.reverseRecOn with
  | nil => rw [List.append_nil]; rfl
  | append_singleton run p ih =>
    have hp : p.isPop = true := hpops p (by simp)
    rw [← List.append_assoc, trailing_concat, removes_concat,
      ih fun q hq => hpops q (List.mem_append_left _ hq)]
    cases p with
    | pop count => exact Nat.add_assoc ..
    | pushSame => cases hp
    | push state => cases hp

/-- All runs stay within a bound exactly when the running total does all along. -/
theorem runsWithin_iff_trailing {bound : Nat} {parts : List Part} :
    RunsWithin bound parts ↔ ∀ earlier, earlier <+: parts → trailing earlier ≤ bound := by
  constructor
  · intro h earlier hearlier
    obtain ⟨run, hsuffix, hpops, htotal⟩ := exists_run_trailing earlier
    rw [← htotal]
    exact h run (hsuffix.isInfix.trans hearlier.isInfix) hpops
  · rintro h run ⟨before, after, rfl⟩ hpops
    have htotal := h (before ++ run) (List.prefix_append _ after)
    rw [trailing_append before hpops] at htotal
    omega

/-! ## Merging -/

/-- The moves found after some parts, latest first. -/
def merged (keep : Int → Int) (parts : List Part) : List Transition :=
  parts.foldl (addPart keep) []

theorem merged_concat (keep : Int → Int) (parts : List Part) (p : Part) :
    merged keep (parts ++ [p]) = addPart keep (merged keep parts) p := List.foldl_concat ..

/-- How the running total shows in the moves found, latest first. -/
inductive Tops : List Transition → Nat → Prop
  /-- the latest move is a pop of that many entries -/
  | pop {total : Nat} {done : List Transition} (hpos : 0 < total) : Tops (.pop total :: done) total
  /-- the latest move is no pop, or there is none -/
  | other {done : List Transition} (hne : ∀ count rest, done ≠ .pop count :: rest) : Tops done 0

section Tops

variable {done : List Transition} {total : Nat} {p : Part}

/-- **The step.** One part more extends the running total, and the latest move shows it. -/
theorem Tops.addPart (h : Tops done total) (hp : p.Proper) :
    Tops (addPart id done p) (p.extend total) := by
  cases p with
  | pop count =>
    have hcount := hp count rfl
    cases h with
    | pop hpos =>
      rw [Directive.addPart, addPop, id_eq, ← Int.natCast_add]
      exact .pop (by omega)
    | other hne =>
      rw [Directive.addPart, addPop.eq_def, Part.extend, Nat.zero_add]
      split
      · exact absurd rfl (hne _ _)
      · exact .pop (by omega)
  | pushSame => exact .other fun _ _ h => by cases h
  | push state =>
    rw [Directive.addPart, addPush.eq_def]
    refine .other fun count rest h => ?_
    split at h
    · split at h <;> cases h
    · cases h

theorem Tops.eq_total (h : Tops done total) {before : Int} {rest : List Transition}
    (hdone : done = .pop before :: rest) : before = total ∧ 0 < total := by
  cases h with
  | pop hpos =>
    cases hdone
    exact ⟨rfl, hpos⟩
  | other hne => exact absurd hdone (hne before rest)

end Tops

/-- The running total is the count of the latest pop. -/
theorem tops_merged {parts : List Part} (hparts : ∀ p ∈ parts, p.Proper) :
    Tops (merged id parts) (trailing parts) := by
  induction parts using List.reverseRecOn with
  | nil => exact .other fun _ _ h => by cases h
  | append_singleton parts p ih =>
    rw [merged_concat, trailing_concat]
    exact (ih fun q hq => hparts q (List.mem_append_left _ hq)).addPart (hparts p (by simp))

/-! ## Counts that come up -/

/-- A bound on the runs is a bound on every count that comes up. -/
theorem runsWithin_iff_popsWithin {bound : Nat} {parts : List Part}
    (hparts : ∀ p ∈ parts, p.Proper) : RunsWithin bound parts ↔
      ∀ earlier, earlier <+: parts → PopsWithin bound (merged id earlier) := by
  rw [runsWithin_iff_trailing]
  constructor
  · intro h earlier
    induction earlier using List.reverseRecOn with
    | nil => exact fun _ count hmem => absurd hmem List.not_mem_nil
    | append_singleton earlier p ih =>
      intro hfront
      have hproper : ∀ q ∈ earlier ++ [p], q.Proper := fun q hq => hparts q (hfront.subset hq)
      have htops := tops_merged fun q hq => hproper q (List.mem_append_left _ hq)
      have hnow := h _ hfront
      rw [merged_concat]
      refine (ih ((List.prefix_append _ _).trans hfront)).addPart (hproper p (by simp)) ?_
      rintro count rfl
      rw [trailing_concat, Part.extend] at hnow
      refine ⟨by omega, fun before rest hdone => ?_⟩
      rw [(htops.eq_total hdone).1]
      omega
  · intro h earlier hfront
    have hwithin := h earlier hfront
    have htops := tops_merged fun q hq => hparts q (hfront.subset hq)
    generalize merged id earlier = done at hwithin htops
    generalize trailing earlier = total at htops ⊢
    cases htops with
    | pop hpos => exact Int.ofNat_le.1 (hwithin total List.mem_cons_self).2
    | other => exact Nat.zero_le bound

theorem RunsWithin.of_prefix {bound : Nat} {earlier parts : List Part}
    (h : RunsWithin bound parts) (hfront : earlier <+: parts) : RunsWithin bound earlier :=
  fun run hrun => h run (hrun.trans hfront.isInfix)

/-- Where a way to keep counts keeps all that the runs add up to, merging has exact counts. -/
theorem RunsWithin.merged_eq {bound : Nat} {parts : List Part} (h : RunsWithin bound parts)
    (hparts : ∀ p ∈ parts, p.Proper) {keep : Int → Int}
    (hkeep : ∀ n : Int, 1 ≤ n → n ≤ bound → keep n = n) : merged keep parts = merged id parts := by
  induction parts using List.reverseRecOn with
  | nil => rfl
  | append_singleton parts p ih =>
    have hbefore : ∀ q ∈ parts, q.Proper := fun q hq => hparts q (List.mem_append_left _ hq)
    have htrailing := runsWithin_iff_trailing.1 h
    have hearlier := htrailing parts (List.prefix_append _ _)
    have hnow := htrailing _ (List.prefix_refl (parts ++ [p]))
    rw [trailing_concat] at hnow
    rw [merged_concat, merged_concat, ih (h.of_prefix (List.prefix_append _ _)) hbefore]
    have htop : ∀ before rest, merged id parts = .pop before :: rest →
        1 ≤ before ∧ before ≤ (trailing parts : Int) := by
      intro before rest hdone
      obtain ⟨rfl, hpos⟩ := (tops_merged hbefore).eq_total hdone
      exact ⟨by omega, Int.le_refl _⟩
    have hsum := Part.add_removes_le hearlier hnow
    exact addPart_eq_exact htop fun n hpos hle => hkeep n hpos (by omega)

/-! ## Words -/

/-- A sum that is made while the parts are merged does not fit a word. -/
def Overflows (parts : List Part) : Prop :=
  ∃ (earlier : List Part) (count : Nat) (before : Int) (done : List Transition),
    earlier ++ [.pop count] <+: parts ∧ merged wordCount earlier = .pop before :: done ∧
      wordCount (before + count) ≠ before + count

/-- Beyond the largest word, counts are not kept. -/
theorem wordCount_ne {n : Int} (h : 2147483647 < n) : wordCount n ≠ n := by
  have hlt : n.bmod 4294967296 < (4294967296 + 1) / 2 := Int.bmod_lt (by decide)
  rw [wordCount]
  omega

/-- The first part with which a run does not fit is added with a sum that does not. -/
theorem RunsWithin.overflows_concat {parts : List Part} (h : RunsWithin 2147483647 parts)
    (hparts : ∀ q ∈ parts, q.Proper) {p : Part} (hsmall : p.removes ≤ maxCount)
    (hlarge : 2147483647 < p.extend (trailing parts)) : Overflows (parts ++ [p]) := by
  cases p with
  | pop count =>
    -- what was merged before is exact, so the running total is the count of the latest pop
    have htops := tops_merged hparts
    rw [← h.merged_eq hparts fun n => wordCount_eq] at htops
    rw [Part.extend] at hlarge
    generalize trailing parts = total at htops hlarge
    generalize hdone : merged wordCount parts = done at htops
    cases htops with
    | pop hpos =>
      exact ⟨parts, count, total, _, List.prefix_refl _, hdone, wordCount_ne (by omega)⟩
    | other =>
      have : count ≤ 1000000 := hsmall
      omega
  | pushSame => exact absurd hlarge (Nat.not_lt_zero _)
  | push state => exact absurd hlarge (Nat.not_lt_zero _)

/-- **Overflow.** Sums leave the words exactly when a run of pops does not fit one. -/
theorem runsWithin_iff_not_overflows {parts : List Part} (hparts : ∀ p ∈ parts, p.Proper)
    (hsmall : ∀ p ∈ parts, p.removes ≤ maxCount) :
    RunsWithin 2147483647 parts ↔ ¬Overflows parts := by
  constructor
  · rintro h ⟨earlier, count, before, done, hfront, hmerged, hne⟩
    have hearlier : earlier <+: parts := (List.prefix_append _ _).trans hfront
    have hproper : ∀ p ∈ earlier, p.Proper := fun p hp => hparts p (hearlier.subset hp)
    have htotal := runsWithin_iff_trailing.1 h _ hfront
    rw [(h.of_prefix hearlier).merged_eq hproper fun n => wordCount_eq] at hmerged
    rw [trailing_concat, Part.extend] at htotal
    obtain ⟨rfl, hpos⟩ := (tops_merged hproper).eq_total hmerged
    exact hne (wordCount_eq (by omega) (by omega))
  · intro h
    induction parts using List.reverseRecOn with
    | nil =>
      refine runsWithin_iff_trailing.2 fun earlier hfront => ?_
      rw [List.prefix_nil.1 hfront]
      exact Nat.zero_le _
    | append_singleton parts p ih =>
      have hproper : ∀ q ∈ parts, q.Proper := fun q hq => hparts q (List.mem_append_left _ hq)
      have hruns : RunsWithin 2147483647 parts := by
        refine ih hproper (fun q hq => hsmall q (List.mem_append_left _ hq)) ?_
        rintro ⟨earlier, count, before, done, hfront, hsum⟩
        exact h ⟨earlier, count, before, done, hfront.trans (List.prefix_append _ _), hsum⟩
      refine runsWithin_iff_trailing.2 fun earlier hfront => ?_
      rcases List.prefix_concat_iff.1 hfront with rfl | hfront
      · rw [trailing_concat]
        exact Nat.le_of_not_lt fun hlarge =>
          h (hruns.overflows_concat hproper (hsmall p (by simp)) hlarge)
      · exact runsWithin_iff_trailing.1 hruns earlier hfront

/-! ## Accepted directives -/

theorem Part.Written.removes_le {written : Bytes} {p : Part} (h : Written written p) :
    p.removes ≤ maxCount := by
  cases h with
  | pop => decide
  | popCount _ _ hcount => exact hcount.2
  | pushSame => exact Nat.zero_le _
  | push _ _ => exact Nat.zero_le _

/-- No part of a directive removes more than the largest count. -/
theorem Says.removes_le {directive : Bytes} {parts : List Part} (h : Says directive parts) :
    ∀ p ∈ parts, p.removes ≤ maxCount := by
  cases h with
  | nothing => exact fun p hp => absurd hp List.not_mem_nil
  | name =>
    intro p hp
    rw [List.mem_singleton.1 hp]
    exact Nat.zero_le _
  | parts _ hparts => exact Lists.forall_of_forall₂ hparts fun _ _ hp => hp.removes_le

theorem removes_le_mul {parts : List Part} (h : ∀ p ∈ parts, p.removes ≤ maxCount) :
    removes parts ≤ maxCount * parts.length := by
  induction parts using List.reverseRecOn with
  | nil => exact Nat.le_refl 0
  | append_singleton parts p ih =>
    have hparts := ih fun q hq => h q (List.mem_append_left _ hq)
    have hp := h p (by simp)
    rw [removes_concat, List.length_append, List.length_singleton, Nat.mul_add_one]
    omega

/-- **Counts that fit.** An accepted directive says one thing, part by part. While its parts are
merged, the exact counts of all pops are at least one. They stay below `2 ^ 31`, and so do the sums
that are made of counts in words, exactly when no pops that follow one another remove more entries
together; then the moves found have exact counts. With at most 2147 parts that is always so. -/
theorem counts_fit_iff {directive : Bytes} {ts : List Transition}
    (h : parse directive = .ok ts) : ∃ parts, Says directive parts ∧
      (∀ earlier, earlier <+: parts → ∀ count, .pop count ∈ merged id earlier → 1 ≤ count) ∧
      ((∀ earlier, earlier <+: parts → PopsWithin 2147483647 (merged id earlier)) ↔
        RunsWithin 2147483647 parts) ∧
      (¬Overflows parts ↔ RunsWithin 2147483647 parts) ∧
      (RunsWithin 2147483647 parts → parseWith id directive = .ok ts) ∧
      (parts.length ≤ 2147 → RunsWithin 2147483647 parts) := by
  obtain ⟨parts, hsaid, rfl⟩ := parseWith_eq_ok_iff.1 h
  have hproper := hsaid.proper
  refine ⟨parts, hsaid, fun earlier hfront count hmem => ?_,
    (runsWithin_iff_popsWithin hproper).symm,
    (runsWithin_iff_not_overflows hproper hsaid.removes_le).symm, fun hruns => ?_,
    fun hlength run hrun _ => ?_⟩
  · exact (popsWithin_parts (fun p hp => hproper p (hfront.subset hp)) count hmem).1
  · refine parseWith_eq_ok_iff.2 ⟨parts, hsaid, ?_⟩
    exact congrArg List.reverse (hruns.merged_eq hproper fun n => wordCount_eq)
  · have hle := removes_le_mul fun p hp => hsaid.removes_le p (hrun.subset hp)
    have hrunLength := hrun.length_le
    rw [maxCount] at hle
    omega

/-- The largest pop and another one behind it, of which a goto takes an entry, and a single pop. -/
theorem counts_fit_gotos :
    parse (bytes "#pop:1000000#pop:7#push:a#pop") = .ok [.pop 1000006, .goto (bytes "a"), .pop 1] ∧
    PopsWithin 2147483647 (merged id [.pop 1000000, .pop 7]) ∧
    ¬Overflows [.pop 1000000, .pop 7, .push (bytes "a"), .pop 1] ∧
    parseWith id (bytes "#pop:1000000#pop:7#push:a#pop") =
      .ok [.pop 1000006, .goto (bytes "a"), .pop 1] := by
  have hparse : parse (bytes "#pop:1000000#pop:7#push:a#pop") =
      .ok [.pop 1000006, .goto (bytes "a"), .pop 1] := by decide +kernel
  have hsaid : Says (bytes "#pop:1000000#pop:7#push:a#pop")
      [.pop 1000000, .pop 7, .push (bytes "a"), .pop 1] :=
    says_iff.2 (.inr (.inr ⟨bytes "pop:1000000#pop:7#push:a#pop", by decide +kernel,
      by decide +kernel⟩))
  obtain ⟨parts, hparts, -, hwithin, hoverflows, hexact, hshort⟩ := counts_fit_iff hparse
  obtain rfl := hparts.unique hsaid
  have hruns := hshort (by decide)
  exact ⟨hparse, hwithin.2 hruns _ ⟨_, rfl⟩, hoverflows.2 hruns, hexact hruns⟩

/-! ## A row of pops that does not fit -/

/-- One pop again and again. -/
theorem merged_replicate {keep : Int → Int} (hkeep : ∀ a b, keep (keep a + b) = keep (a + b))
    {count : Nat} (hcount : keep count = count) (n : Nat) :
    merged keep (List.replicate (n + 1) (.pop count)) = [.pop (keep ((n + 1) * count))] := by
  induction n with
  | zero => rw [Int.natCast_zero, Int.zero_add, Int.one_mul, hcount]; rfl
  | succ n ih =>
    have hsum : ((n : Int) + 1) * count + count = (((n + 1 : Nat) : Int) + 1) * count := by
      rw [Int.natCast_succ, Int.add_mul (n + 1), Int.one_mul]
    rw [List.replicate_succ', merged_concat, ih, addPart, addPop, hkeep, hsum]

/-- The largest pop, 2148 times. -/
def flood : Bytes := (List.replicate 2148 (bytes "#pop:1000000")).flatten

/-- Its counts add up to more than `2 ^ 31`, and what is kept of the sum is negative: a move that is
to remove two billion entries removes none. -/
theorem flood_overflows :
    Says flood (List.replicate 2148 (.pop 1000000)) ∧
    parseWith id flood = .ok [.pop 2148000000] ∧ parse flood = .ok [.pop (-2146967296)] ∧
    ¬PopsWithin 2147483647 (merged id (List.replicate 2148 (.pop 1000000))) ∧
    Overflows (List.replicate 2148 (.pop 1000000)) := by
  have hfree : 35 ∉ bytes "pop:1000000" := by decide +kernel
  have hpart : Part.Written (35 :: bytes "pop:1000000") (.pop 1000000) :=
    (part?_eq_some_iff hfree).1 (by decide +kernel)
  have hsaid : Says flood (List.replicate 2148 (.pop 1000000)) :=
    .parts (List.replicate_succ ▸ List.cons_ne_nil _ _) (Lists.forall₂_replicate hpart 2148)
  have hexact : merged id (List.replicate 2148 (.pop 1000000)) = [.pop 2148000000] :=
    merged_replicate (fun _ _ => rfl) rfl 2147
  have hwords : merged wordCount (List.replicate 2148 (.pop 1000000)) = [.pop (-2146967296)] :=
    merged_replicate (fun _ _ => Int.bmod_add_bmod) (by decide) 2147
  have hlarge : ¬PopsWithin 2147483647 (merged id (List.replicate 2148 (.pop 1000000))) := by
    rw [hexact]
    exact fun h => absurd (h 2148000000 List.mem_cons_self).2 (by decide)
  refine ⟨hsaid, ?_, ?_, hlarge, ?_⟩
  · refine parseWith_eq_ok_iff.2 ⟨_, hsaid, ?_⟩
    rw [ofParts, ← merged, hexact, List.reverse_singleton]
  · refine parseWith_eq_ok_iff.2 ⟨_, hsaid, ?_⟩
    rw [ofParts, ← merged, hwords, List.reverse_singleton]
  · by_contra hfits
    have hruns := (runsWithin_iff_not_overflows hsaid.proper hsaid.removes_le).2 hfits
    exact hlarge ((runsWithin_iff_popsWithin hsaid.proper).1 hruns _ (List.prefix_refl _))

end StackLexer.Directive
