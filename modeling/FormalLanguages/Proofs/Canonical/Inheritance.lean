import FormalLanguages.Proofs.WellFormed

/-!
The exact table after the removal of chain bodies. A head inherits the other bodies of the names
that its chain bodies lead to, over any number of them and around any cycle, and keeps its own
other bodies. A head that has none of these has no row any more.
-/

namespace FormalLanguages

open Relation

namespace RuleTable

variable {rules : RuleTable}

/-- The body is not a single name, and it is a body of the head or of a name that one or more chain
bodies lead to from there. -/
def Inherits (rules : RuleTable) (head : String) (body : Body) : Prop :=
  (∀ name, body ≠ [.nonTerminal name]) ∧
    (body ∈ rules.bodies head ∨
      ∃ name, TransGen rules.Chains head name ∧ body ∈ rules.bodies name)

theorem inherits_iff {head : String} {body : Body} : rules.Inherits head body ↔
    body.isChain = false ∧ ∃ name, ReflTransGen rules.Chains head name ∧ ⟨name, body⟩ ∈ rules := by
  have hchain : (∀ name, body ≠ [.nonTerminal name]) ↔ body.isChain = false := by
    rw [← Bool.not_eq_true, Body.isChain_iff, not_exists]
  simp only [Inherits, hchain, mem_bodies, reflTransGen_iff_eq_or_transGen]
  refine and_congr_right fun _ => ⟨?_, ?_⟩
  · rintro (hown | ⟨name, hpath, hbody⟩)
    · exact ⟨head, .inl rfl, hown⟩
    · exact ⟨name, .inr hpath, hbody⟩
  · rintro ⟨name, rfl | hpath, hbody⟩
    · exact .inl hbody
    · exact .inr ⟨name, hpath, hbody⟩

end RuleTable

namespace Grammar

open RuleTable

variable {g : Grammar}

theorem mem_removeChains_rules_iff_inherits (hg : g.Closed) {head : String} {body : Body} :
    ⟨head, body⟩ ∈ g.removeChains.rules ↔ g.rules.Inherits head body := by
  rw [mem_removeChains_rules hg, inherits_iff]

namespace Draft

variable {d : Draft}

/-- What the removal of chain bodies leaves of a draft. -/
structure IsChainFreeOf (d' d : Draft) : Prop where
  terminals_eq : d'.terminals = d.terminals
  nonTerminals_eq : d'.nonTerminals = d.nonTerminals
  goal_eq : d'.goal = d.goal
  /-- A declared name has the bodies that it inherits, no others, and no row if there are none. -/
  lists : d'.book.Lists fun head body => head ∈ d.nonTerminals ∧ d.book.rules.Inherits head body

theorem isChainFreeOf_removeChains (hd : d.grammar.Closed) : d.removeChains.IsChainFreeOf d where
  terminals_eq := rfl
  nonTerminals_eq := rfl
  goal_eq := rfl
  lists := by
    refine (RuleBook.tidy_withoutChains d.nonTerminals d.book).lists fun head body => ?_
    have hrule : ⟨head, body⟩ ∈ d.removeChains.book.rules ↔ d.book.rules.Inherits head body := by
      rw [← grammar_rules, grammar_removeChains, mem_removeChains_rules_iff_inherits hd,
        grammar_rules]
    refine hrule.trans (iff_and_self.mpr fun hinherits => ?_)
    -- a rule of the result has a declared head
    have hmem := (mem_removeChains_rules_iff_inherits hd).mpr hinherits
    exact hd.removeChains.head _ hmem

/-- The removal of chain bodies leaves each declared name exactly what it inherits, and a head that
inherits nothing is gone. This holds for every draft that arises, and for the draft that the pass
gets on the way to a canonical form. -/
theorem isChainFreeOf_of_arises (hd : d.Arises) :
    d.removeChains.IsChainFreeOf d ∧
    ∀ goal, d.goal = some goal → (toCanonical.on d).1 = .ok () →
      ((d.removeBarren.removeUnreachable goal).removeLambda goal).removeChains.IsChainFreeOf
        ((d.removeBarren.removeUnreachable goal).removeLambda goal) := by
  have hclosed := hd.reachable.closed
  refine ⟨isChainFreeOf_removeChains hclosed, fun goal hgoal htaken => ?_⟩
  obtain ⟨run, root, h⟩ := exists_run_of_taken hgoal htaken
  refine isChainFreeOf_removeChains ?_
  rw [grammar_lambdaFree h]
  exact h.closed_lambdaFree hclosed

/-- `A` and `B` refer to each other, `S` has no other body than `A`, and `C` leads to itself only. -/
def chainLoops : Draft :=
  afterCalls [.setTerminals "ab", .setNonTerminals "S;A;B;C", .setGoal "S", .addRule "S→A",
    .addRule "A→B", .addRule "B→A", .addRule "A→a", .addRule "B→bb", .addRule "C→C"] {}

theorem isChainFreeOf_chainLoops : chainLoops.Arises ∧
    chainLoops.removeChains.IsChainFreeOf chainLoops ∧
    chainLoops.goal = some "S" ∧ (toCanonical.on chainLoops).1 = .ok () ∧
    ((chainLoops.removeBarren.removeUnreachable "S").removeLambda "S").removeChains.IsChainFreeOf
      ((chainLoops.removeBarren.removeUnreachable "S").removeLambda "S") := by
  have harises : chainLoops.Arises := Arises.new.afterCalls _
  have hgoal : chainLoops.goal = some "S" := by decide +kernel
  have htaken : (toCanonical.on chainLoops).1.toOption = some () := by decide +kernel
  obtain ⟨hpass, hruns⟩ := isChainFreeOf_of_arises harises
  exact ⟨harises, hpass, hgoal, eq_ok_of_toOption htaken,
    hruns "S" hgoal (eq_ok_of_toOption htaken)⟩

-- `S` and the heads on the loop have all bodies of the loop, and `C` is gone
example : chainLoops.removeChains.book.toList.map Prod.fst = ["A", "B", "S"] ∧
    ∀ head ∈ ["A", "B", "S"], (chainLoops.removeChains.book.bodies head).toList =
      [[.terminal 'a'], [.terminal 'b', .terminal 'b']] := by decide +kernel

end Draft

end Grammar

end FormalLanguages
