import Mathlib.Data.List.Induction
import StackLexer.Proofs.WrittenDirectives
import StackLexer.StateStack

/-!
# What directives mean

A directive is read and improved in one go: neighbouring pops are merged, and a push after a pop
turns into a goto that takes one entry off the pop. The rewrites are made on the moves found so far,
of which only the last one is looked at, and each of them has to respect that the last entry of a
stack is never removed.

* `Directive.follow` — the parts of a directive followed one by one, on the entries of a stack;
* `Directive.moveAll?_addPart` — each rewrite does to a stack what the part it was made for does.
  This is the step, and `Directive.moveAll?_ofParts` the run over all parts;
* `Directive.popsWithin_parts` — merged counts are positive and bounded by what the parts remove
  together. The step needs the one, and `Directive.ofParts_eq_exact` the other: as long as the bound
  fits a word, the counts are exact;
* `Directive.directives_keep_meaning` — so the moves of accepted directives do what is written.
-/

namespace StackLexer

/-! ## Moves one after the other -/

namespace StateStack

variable {resolve : Bytes → Option Nat}

/-- Make several moves; `none` when one of them leads to a name that does not resolve. -/
def moveAll? (resolve : Bytes → Option Nat) (s : StateStack) (ts : List Transition) :
    Option StateStack := ts.foldlM (move? resolve) s

theorem moveAll?_concat (s : StateStack) (ts : List Transition) (t : Transition) :
    s.moveAll? resolve (ts ++ [t]) = (s.moveAll? resolve ts).bind fun u => u.move? resolve t := by
  simp [moveAll?, List.foldlM_append]

/-- Moves that can all be made lead to where they lead. -/
theorem moveAll_of_moveAll? {s u : StateStack} {ts : List Transition}
    (h : s.moveAll? resolve ts = some u) : s.moveAll resolve ts = u := by
  induction ts generalizing s with
  | nil => exact Option.some.inj h
  | cons t ts ih =>
    obtain ⟨v, hv, hrest⟩ := Option.bind_eq_some_iff.1 h
    rw [moveAll, List.foldl_cons, move, hv, Option.getD_some]
    exact ih hrest

/-- Popping twice is popping as much at once: the entry that is left is the same. -/
theorem pop_add (a b : Nat) (s : StateStack) : s.pop (a + b) = (s.pop a).pop b := by
  induction a generalizing s with
  | zero => rw [Nat.zero_add, pop]
  | succ a ih =>
    obtain ⟨top, below⟩ := s
    rw [Nat.succ_add_eq_add_succ, Nat.add_succ]
    cases below with
    | nil =>
      cases b with
      | zero => rfl
      | succ b => rfl
    | cons next below => exact ih ⟨next, below⟩

theorem move?_pop_add {a b : Int} (ha : 0 ≤ a) (hb : 0 ≤ b) (s : StateStack) :
    s.move? resolve (.pop (a + b)) =
      (s.move? resolve (.pop a)).bind fun u => u.move? resolve (.pop b) := by
  simp only [move?, Option.bind_some, Int.toNat_add ha hb, pop_add]

theorem move?_goto (s : StateStack) (state : Bytes) :
    s.move? resolve (.goto state) =
      (s.move? resolve (.pop 1)).bind fun u => u.move? resolve (.push state) := rfl

end StateStack

namespace Directive

/-! ## What is meant -/

variable {resolve : Bytes → Option Nat}

/-- What a part does to the entries of a stack, bottom first: pops leave at least one of them. -/
def Part.act (resolve : Bytes → Option Nat) (entries : List Nat) : Part → Option (List Nat)
  | .pop count => some (entries.take (max 1 (entries.length - count)))
  | .pushSame => entries.getLast?.map fun top => entries ++ [top]
  | .push state => (resolve state).map fun i => entries ++ [i]

/-- The parts of a directive followed one by one. -/
def follow (resolve : Bytes → Option Nat) (entries : List Nat) (parts : List Part) :
    Option (List Nat) :=
  parts.foldlM (Part.act resolve) entries

/-- The move a part stands for on its own. -/
def Part.move : Part → Transition
  | .pop count => .pop count
  | .pushSame => .pushSame
  | .push state => .push state

/-- The move of a part does what the part says. -/
theorem Part.act_toList (s : StateStack) (p : Part) :
    p.act resolve s.toList = (s.move? resolve p.move).map StateStack.toList := by
  cases p with
  | pop count => simp [act, move, StateStack.move?, StateStack.toList_pop]
  | pushSame =>
    have htop : s.toList.getLast? = some s.top := by simp [StateStack.toList]
    simp [act, move, StateStack.move?, htop]
  | push state => cases h : resolve state <;> simp [act, move, StateStack.move?, h]

theorem follow_toList (s : StateStack) (parts : List Part) :
    follow resolve s.toList parts =
      (s.moveAll? resolve (parts.map Part.move)).map StateStack.toList := by
  induction parts generalizing s with
  | nil => rfl
  | cons p rest ih =>
    rw [follow, List.foldlM_cons, Part.act_toList, List.map_cons, StateStack.moveAll?,
      List.foldlM_cons]
    cases s.move? resolve p.move with
    | none => rfl
    | some u => exact ih u

/-! ## Rewrites -/

/-- Every pop removes something, and at most so many entries. -/
def PopsWithin (bound : Int) (ts : List Transition) : Prop :=
  ∀ count, .pop count ∈ ts → 1 ≤ count ∧ count ≤ bound

/-- How many entries a part may remove. -/
def Part.removes : Part → Nat
  | .pop count => count
  | .pushSame => 0
  | .push _ => 0

/-- How many entries parts may remove together. -/
def removes (parts : List Part) : Nat := parts.foldl (fun total p => total + p.removes) 0

theorem popsWithin_cons {bound : Int} {t : Transition} {ts : List Transition} :
    PopsWithin bound (t :: ts) ↔
      (∀ count, t = .pop count → 1 ≤ count ∧ count ≤ bound) ∧ PopsWithin bound ts := by
  constructor
  · intro h
    refine ⟨fun count ht => h count ?_, fun count hmem => h count (List.mem_cons_of_mem _ hmem)⟩
    rw [ht]
    exact List.mem_cons_self
  · rintro ⟨ht, hts⟩ count hmem
    rcases List.mem_cons.1 hmem with hmem | hmem
    · exact ht count hmem.symm
    · exact hts count hmem

theorem PopsWithin.mono {bound more : Int} {ts : List Transition} (h : PopsWithin bound ts)
    (hle : bound ≤ more) : PopsWithin more ts :=
  fun count hmem => ⟨(h count hmem).1, Int.le_trans (h count hmem).2 hle⟩

/-- **The step.** Whatever a part is merged with, the moves afterwards do what the moves before it
do and then its own. -/
theorem moveAll?_addPart {done : List Transition} {bound : Int} (hdone : PopsWithin bound done)
    (s : StateStack) (p : Part) :
    s.moveAll? resolve (addPart id done p).reverse =
      (s.moveAll? resolve done.reverse).bind fun u => u.move? resolve p.move := by
  -- a part that is not merged is added at the end
  have hadded : ∀ t : Transition, s.moveAll? resolve (t :: done).reverse =
      (s.moveAll? resolve done.reverse).bind fun u => u.move? resolve t := by
    intro t
    rw [List.reverse_cons, StateStack.moveAll?_concat]
  cases p with
  | pop count =>
    rw [addPart, addPop.eq_def]
    split
    · next before done =>
      have hbefore := (hdone before List.mem_cons_self).1
      simp only [List.reverse_cons, StateStack.moveAll?_concat, Option.bind_assoc, id_eq]
      congr 1
      funext u
      exact u.move?_pop_add (by omega) (Int.natCast_nonneg count)
    · exact hadded _
  | pushSame => exact hadded _
  | push state =>
    rw [addPart, addPush.eq_def]
    split
    · next before done =>
      have hbefore := (hdone before List.mem_cons_self).1
      split
      · next hone =>
        subst hone
        simp only [List.reverse_cons, StateStack.moveAll?_concat, Option.bind_assoc]
        congr 1
      · -- one entry of the pop is left to the goto
        simp only [List.reverse_cons, StateStack.moveAll?_concat, Option.bind_assoc, id_eq]
        congr 1
        funext u
        have hsplit : u.move? resolve (.pop (before - 1 + 1)) =
            (u.move? resolve (.pop (before - 1))).bind fun v => v.move? resolve (.pop 1) :=
          u.move?_pop_add (by omega) (by omega)
        rw [Int.sub_add_cancel] at hsplit
        simp only [StateStack.move?_goto, hsplit, Option.bind_assoc, Part.move]
    · exact hadded _

/-- One part more keeps a bound that it respects together with the pop before it. -/
theorem PopsWithin.addPart {done : List Transition} {bound : Int} (hdone : PopsWithin bound done)
    {p : Part} (hp : p.Proper)
    (hsum : ∀ count : Nat, p = .pop count → count ≤ bound ∧
      ∀ before rest, done = .pop before :: rest → before + count ≤ bound) :
    PopsWithin bound (addPart id done p) := by
  cases p with
  | pop count =>
    have hcount := hp count rfl
    obtain ⟨halone, hmerged⟩ := hsum count rfl
    rw [Directive.addPart, addPop.eq_def]
    split
    · next before done =>
      obtain ⟨hlatest, hrest⟩ := popsWithin_cons.1 hdone
      have hbefore := hlatest before rfl
      have htogether := hmerged before done rfl
      refine popsWithin_cons.2 ⟨?_, hrest⟩
      rintro _ ⟨⟩
      rw [id_eq]
      omega
    · refine popsWithin_cons.2 ⟨?_, hdone⟩
      rintro _ ⟨⟩
      omega
  | pushSame => exact popsWithin_cons.2 ⟨by simp, hdone⟩
  | push state =>
    rw [Directive.addPart, addPush.eq_def]
    split
    · next before done =>
      obtain ⟨hlatest, hrest⟩ := popsWithin_cons.1 hdone
      split
      · exact popsWithin_cons.2 ⟨by simp, hrest⟩
      · refine popsWithin_cons.2 ⟨by simp, popsWithin_cons.2 ⟨?_, hrest⟩⟩
        rintro _ ⟨⟩
        have hbefore := hlatest before rfl
        rw [id_eq]
        omega
    · exact popsWithin_cons.2 ⟨by simp, hdone⟩

/-- A way to keep counts that keeps those which come up is as good as any. Only the latest move
matters. -/
theorem addPart_eq_exact {done : List Transition} {bound : Int}
    (hdone : ∀ before rest, done = .pop before :: rest → 1 ≤ before ∧ before ≤ bound)
    {keep : Int → Int} {p : Part}
    (hkeep : ∀ n, 1 ≤ n → n ≤ bound + p.removes → keep n = n) :
    addPart keep done p = addPart id done p := by
  cases p with
  | pop count =>
    rw [addPart, addPart, addPop.eq_def, addPop.eq_def]
    split
    · next before done =>
      have hbefore := hdone before done rfl
      simp only [Part.removes] at hkeep
      rw [hkeep _ (by omega) (by omega), id_eq]
    · rfl
  | pushSame => rfl
  | push state =>
    rw [addPart, addPart, addPush.eq_def, addPush.eq_def]
    split
    · next before done =>
      have hbefore := hdone before done rfl
      simp only [Part.removes] at hkeep
      split
      · rfl
      · rw [hkeep _ (by omega) (by omega), id_eq]
    · rfl

theorem removes_concat (parts : List Part) (p : Part) :
    removes (parts ++ [p]) = removes parts + p.removes := List.foldl_concat ..

/-- The counts of merged pops are bounded by what the parts remove together. -/
theorem popsWithin_parts {parts : List Part} (hparts : ∀ p ∈ parts, p.Proper) :
    PopsWithin (removes parts) (parts.foldl (addPart id) []) := by
  induction parts using List.reverseRecOn with
  | nil => exact fun count hmem => absurd hmem List.not_mem_nil
  | append_singleton parts p ih =>
    rw [List.foldl_append, removes_concat, Int.natCast_add]
    have hbefore := ih fun q hq => hparts q (List.mem_append_left _ hq)
    refine (hbefore.mono (by omega)).addPart (hparts p (by simp)) ?_
    rintro count rfl
    rw [Part.removes]
    refine ⟨by omega, fun before rest hdone => ?_⟩
    have hlatest := hbefore before (hdone ▸ List.mem_cons_self)
    omega

/-- **Exact counts.** Where a way to keep counts keeps all up to what the parts remove together, the
moves are those with exact counts. -/
theorem ofParts_eq_exact {parts : List Part} (hparts : ∀ p ∈ parts, p.Proper) {keep : Int → Int}
    (hkeep : ∀ n : Int, 1 ≤ n → n ≤ removes parts → keep n = n) :
    ofParts keep parts = ofParts id parts := by
  rw [ofParts, ofParts]
  congr 1
  induction parts using List.reverseRecOn with
  | nil => rfl
  | append_singleton parts p ih =>
    simp only [removes_concat, Int.natCast_add] at hkeep
    have hbefore : ∀ q ∈ parts, q.Proper := fun q hq => hparts q (List.mem_append_left _ hq)
    rw [List.foldl_append, List.foldl_append, ih hbefore fun n h₁ h₂ => hkeep n h₁ (by omega)]
    refine addPart_eq_exact (fun before rest hdone => ?_) hkeep
    exact popsWithin_parts hbefore before (hdone ▸ List.mem_cons_self)

/-- **The run.** The moves of a directive do what the moves of its parts do. -/
theorem moveAll?_ofParts {parts : List Part} (hparts : ∀ p ∈ parts, p.Proper) (s : StateStack) :
    s.moveAll? resolve (ofParts id parts) = s.moveAll? resolve (parts.map Part.move) := by
  rw [ofParts]
  induction parts using List.reverseRecOn with
  | nil => rfl
  | append_singleton parts p ih =>
    have hbefore : ∀ q ∈ parts, q.Proper := fun q hq => hparts q (List.mem_append_left _ hq)
    rw [List.foldl_append, List.map_append, List.map_singleton, StateStack.moveAll?_concat,
      ← ih hbefore]
    exact moveAll?_addPart (popsWithin_parts hbefore) s p

/-! ## Accepted directives -/

/-- Words keep the counts that fit. -/
theorem wordCount_eq {n : Int} (hpos : 1 ≤ n) (hle : n ≤ 2147483647) : wordCount n = n := by
  rw [wordCount, Int.bmod_def]
  omega

/-- The moves do to every stack on which the names resolve what the parts say. -/
def Means (ts : List Transition) (parts : List Part) : Prop :=
  ∀ (resolve : Bytes → Option Nat) (s : StateStack),
    (∀ state, .push state ∈ parts → (resolve state).isSome = true) →
    follow resolve s.toList parts = some (s.moveAll resolve ts).toList

theorem exists_moveAll? {parts : List Part}
    (h : ∀ state, .push state ∈ parts → (resolve state).isSome = true) (s : StateStack) :
    ∃ u, s.moveAll? resolve (parts.map Part.move) = some u := by
  induction parts generalizing s with
  | nil => exact ⟨s, rfl⟩
  | cons p rest ih =>
    obtain ⟨u, hu⟩ : ∃ u, s.move? resolve p.move = some u := by
      cases p with
      | pop count => exact ⟨_, rfl⟩
      | pushSame => exact ⟨_, rfl⟩
      | push state =>
        obtain ⟨i, hi⟩ := Option.isSome_iff_exists.1 (h state List.mem_cons_self)
        exact ⟨s.push i, by rw [Part.move, StateStack.move?, hi, Option.map_some]⟩
    obtain ⟨v, hv⟩ := ih (fun state hmem => h state (List.mem_cons_of_mem _ hmem)) u
    exact ⟨v, by rw [List.map_cons, StateStack.moveAll?, List.foldlM_cons, hu]; exact hv⟩

/-- Moves that do what the moves of the parts do mean the parts. -/
theorem means_of_moveAll? {ts : List Transition} {parts : List Part}
    (h : ∀ (resolve : Bytes → Option Nat) (s : StateStack),
      s.moveAll? resolve ts = s.moveAll? resolve (parts.map Part.move)) : Means ts parts := by
  intro resolve s hresolve
  obtain ⟨u, hu⟩ := exists_moveAll? hresolve s
  rw [follow_toList, hu, StateStack.moveAll_of_moveAll? ((h resolve s).trans hu), Option.map_some]

/-- Several directives in a row do what their parts do in a row: nothing is merged across them. -/
theorem moveAll?_flatten {readings : List (List Part)}
    (h : ∀ parts ∈ readings, ∀ p ∈ parts, p.Proper) (s : StateStack) :
    s.moveAll? resolve (readings.map (ofParts id)).flatten =
      s.moveAll? resolve (readings.flatten.map Part.move) := by
  induction readings generalizing s with
  | nil => rfl
  | cons parts rest ih =>
    obtain ⟨hparts, hrest⟩ := List.forall_mem_cons.1 h
    have hfirst : s.moveAll? resolve (ofParts id parts) =
        s.moveAll? resolve (parts.map Part.move) := moveAll?_ofParts hparts s
    simp only [StateStack.moveAll?] at hfirst ih ⊢
    simp only [List.map_cons, List.flatten_cons, List.map_append, List.foldlM_append, hfirst]
    congr 1
    funext u
    exact ih hrest u

/-- **Directives keep their meaning.** An accepted directive says one thing, part by part. Its moves,
with exact counts, do to every stack on which the names resolve what following the parts one by one
does: neither the merging of pops nor the turning of pushes into gotos shows, whatever the height of
the stack. The same holds for a list of directives and the parts of all its members in a row. Where
what the parts of each directive remove adds up to a number that fits a word, the moves found have
these exact counts. -/
theorem directives_keep_meaning :
    (∀ directive ts, parse directive = .ok ts → ∃ parts exact, Says directive parts ∧
      (∀ others, Says directive others → others = parts) ∧
      parseWith id directive = .ok exact ∧ Means exact parts ∧
      (removes parts ≤ 2147483647 → ts = exact)) ∧
    ∀ directives ts, parseAll directives = .ok ts → ∃ readings exact,
      List.Forall₂ Says directives readings ∧
      parseAllWith id directives = .ok exact ∧ Means exact readings.flatten ∧
      ((∀ parts ∈ readings, removes parts ≤ 2147483647) → ts = exact) := by
  have hexact : ∀ parts : List Part, (∀ p ∈ parts, p.Proper) → removes parts ≤ 2147483647 →
      ofParts wordCount parts = ofParts id parts := fun parts hproper hfits =>
    ofParts_eq_exact hproper fun n hpos hle => wordCount_eq hpos (by omega)
  constructor
  · intro directive ts h
    obtain ⟨parts, hsays, rfl⟩ := parseWith_eq_ok_iff.1 h
    refine ⟨parts, ofParts id parts, hsays, fun others hothers => hothers.unique hsays,
      parseWith_eq_ok_iff.2 ⟨parts, hsays, rfl⟩, ?_, hexact parts hsays.proper⟩
    exact means_of_moveAll? fun resolve s => moveAll?_ofParts hsays.proper s
  · intro directives ts h
    obtain ⟨readings, hsays, rfl⟩ := parseAllWith_eq_ok_iff.1 h
    have hproper : ∀ parts ∈ readings, ∀ p ∈ parts, p.Proper :=
      Lists.forall_of_forall₂ hsays fun _ _ h => h.proper
    refine ⟨readings, (readings.map (ofParts id)).flatten, hsays,
      parseAllWith_eq_ok_iff.2 ⟨readings, hsays, rfl⟩, ?_, fun hfits => ?_⟩
    · exact means_of_moveAll? fun resolve s => moveAll?_flatten hproper s
    · congr 1
      exact List.map_congr_left fun parts hmem =>
        hexact parts (hproper parts hmem) (hfits parts hmem)

/-- On a stack with fewer entries than the directive removes, and on a list of directives. -/
theorem directives_keep_meaning_floor :
    parse (bytes "#pop:2#pop#push:a#push") = .ok [.pop 2, .goto (bytes "a"), .pushSame] ∧
    follow (fun _ => some 7) [0, 1, 2] [.pop 2, .pop 1, .push (bytes "a"), .pushSame] =
      some [0, 7, 7] ∧
    ((⟨2, [1, 0]⟩ : StateStack).moveAll (fun _ => some 7)
      [.pop 2, .goto (bytes "a"), .pushSame]).toList = [0, 7, 7] ∧
    parseAll [bytes "#pop", [], bytes "a"] = .ok [.pop 1, .push (bytes "a")] ∧
    ∃ readings exact, List.Forall₂ Says [bytes "#pop", [], bytes "a"] readings ∧
      parseAllWith id [bytes "#pop", [], bytes "a"] = .ok exact ∧
      Means exact readings.flatten := by
  have hparse : parse (bytes "#pop:2#pop#push:a#push") =
      .ok [.pop 2, .goto (bytes "a"), .pushSame] := by decide +kernel
  have hparseAll : parseAll [bytes "#pop", [], bytes "a"] = .ok [.pop 1, .push (bytes "a")] := by
    decide +kernel
  have hsays : Says (bytes "#pop:2#pop#push:a#push")
      [.pop 2, .pop 1, .push (bytes "a"), .pushSame] :=
    says_iff.2 (.inr (.inr ⟨bytes "pop:2#pop#push:a#push", by decide +kernel, by decide +kernel⟩))
  have hfollow : follow (fun _ => some 7) [0, 1, 2]
      [.pop 2, .pop 1, .push (bytes "a"), .pushSame] = some [0, 7, 7] := by decide +kernel
  obtain ⟨parts, exact, -, honly, -, hmeans, hwords⟩ := directives_keep_meaning.1 _ _ hparse
  obtain rfl := honly _ hsays
  obtain rfl := hwords (by decide)
  have hmoved := hmeans (fun _ => some 7) ⟨2, [1, 0]⟩ fun _ _ => rfl
  rw [show (⟨2, [1, 0]⟩ : StateStack).toList = [0, 1, 2] from rfl, hfollow] at hmoved
  obtain ⟨readings, exact, hreadings, hexact, hmeans, -⟩ := directives_keep_meaning.2 _ _ hparseAll
  exact ⟨hparse, hfollow, (Option.some.inj hmoved).symm, hparseAll, readings, exact, hreadings,
    hexact, hmeans⟩

end Directive

end StackLexer
