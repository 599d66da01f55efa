import IntervalFlow.Proofs.Graph.Path
import Mathlib.Algebra.BigOperators.Group.List.Lemmas
import Mathlib.Algebra.Ring.Int.Defs

/-!
# Rings — regions that run in a single line

Where every node of a region but its head has one successor, a run has no choice between two visits
of the head. If moreover only one successor of the head lies in the region, the region is a ring: the
chain of successors that starts there passes every other node once and comes back to the head.
-/

namespace IntervalFlow.Graph

/-! ## Chains of single successors -/

/-- From `n`, going on to the only successor of each node leads to `head`. The nodes passed before
are listed, `n` first. -/
inductive Chain (g : Graph) (head : NodeId) : NodeId → List NodeId → Prop
  | arrived : Chain g head head []
  | pass {n m : NodeId} {passed : List NodeId} : n ≠ head → g.next n = [m] →
      Chain g head m passed → Chain g head n (n :: passed)

namespace Chain

variable {g : Graph} {head n m : NodeId} {passed passed' : List NodeId}

theorem eq_nil (h : g.Chain head head passed) : passed = [] := by
  cases h with
  | arrived => rfl
  | pass hne => exact absurd rfl hne

/-- A node on the way to the head has one successor, and the rest of the way starts there. -/
theorem exists_tail (h : g.Chain head n passed) (hne : n ≠ head) :
    ∃ m rest, passed = n :: rest ∧ g.next n = [m] ∧ g.Chain head m rest := by
  cases h with
  | arrived => exact absurd rfl hne
  | pass _ hnext hrest => exact ⟨_, _, rfl, hnext, hrest⟩

theorem unique (h : g.Chain head n passed) (h' : g.Chain head n passed') : passed = passed' := by
  induction h generalizing passed' with
  | arrived => exact h'.eq_nil.symm
  | pass hne hnext _ ih =>
    obtain ⟨m', rest, rfl, hnext', hrest⟩ := h'.exists_tail hne
    rw [hnext] at hnext'
    cases hnext'
    rw [ih hrest]

theorem path (h : g.Chain head n passed) : g.Path n head := by
  induction h with
  | arrived => exact .refl
  | pass _ hnext _ ih =>
    refine .head ?_ ih
    rw [hnext]
    exact List.mem_singleton_self _

/-- A node that is passed lies on a way from the first one, and the rest of the chain is its own. -/
theorem of_mem (h : g.Chain head n passed) (hm : m ∈ passed) :
    g.Path n m ∧ m ≠ head ∧ ∃ rest, g.Chain head m rest ∧ rest <:+ passed := by
  induction h with
  | arrived => cases hm
  | pass hne hnext hrest ih =>
    rcases List.mem_cons.mp hm with rfl | hm
    · exact ⟨.refl, hne, _, .pass hne hnext hrest, List.suffix_rfl⟩
    · obtain ⟨hpath, hne', rest, hchain, hsuffix⟩ := ih hm
      refine ⟨.head ?_ hpath, hne', rest, hchain, hsuffix.trans (List.suffix_cons _ _)⟩
      rw [hnext]
      exact List.mem_singleton_self _

/-- No node is passed twice: from its second visit on, the chain would go round for ever. -/
theorem nodup (h : g.Chain head n passed) : passed.Nodup := by
  induction h with
  | arrived => exact List.nodup_nil
  | @pass n m passed hne hnext hrest ih =>
    refine List.nodup_cons.mpr ⟨?_, ih⟩
    intro hmem
    obtain ⟨-, -, rest, hchain, hsuffix⟩ := hrest.of_mem hmem
    have hsame : n :: passed = rest := unique (.pass hne hnext hrest) hchain
    have hlength := hsuffix.length_le
    rw [← hsame, List.length_cons] at hlength
    omega

/-- The successor of a node that is passed is passed too, unless it is the head. -/
theorem next_of_mem (h : g.Chain head n passed) {k : NodeId} (hm : m ∈ passed)
    (hk : k ∈ g.next m) : k = head ∨ k ∈ passed := by
  obtain ⟨-, hne, rest, hchain, hsuffix⟩ := h.of_mem hm
  obtain ⟨k', rest', rfl, hnext, hrest⟩ := hchain.exists_tail hne
  rw [hnext] at hk
  obtain rfl := List.mem_singleton.mp hk
  cases hrest with
  | arrived => exact .inl rfl
  | pass =>
    right
    exact hsuffix.subset (List.mem_cons_of_mem _ List.mem_cons_self)

end Chain

/-! ## Regions -/

variable {g : Graph} {head n m : NodeId}

/-- A node that is reached from the head and has a successor in the region lies in the region. -/
theorem mem_cycleOf_of_next (hpath : g.Path head n) (hedge : m ∈ g.next n)
    (hm : m ∈ g.cycleOf head) : n ∈ g.cycleOf head := by
  obtain ⟨-, -, hback⟩ := mem_cycleOf.mp hm
  exact mem_cycleOf.mpr ⟨(lt_size_of_mem_next hedge).1, hpath, .head hedge hback⟩

/-- The region of `head` runs in a single line that starts with `body`. -/
structure Ring (g : Graph) (head body : NodeId) : Prop where
  single : ∀ n ∈ g.cycleOf head, n ≠ head → (g.next n).length = 1
  first : body ∈ g.next head
  inside : body ∈ g.cycleOf head
  only : ∀ n ∈ g.next head, n ∈ g.cycleOf head → n = body

namespace Ring

variable {body : NodeId}

/-- Every node of the region leads to the head. -/
theorem exists_chain (h : g.Ring head body) (hn : n ∈ g.cycleOf head) :
    ∃ passed, g.Chain head n passed := by
  obtain ⟨-, hto, hback⟩ := mem_cycleOf.mp hn
  induction hback using Relation.ReflTransGen.head_induction_on with
  | refl => exact ⟨[], .arrived⟩
  | @head n m hedge hback ih =>
    by_cases hne : n = head
    · subst hne
      exact ⟨[], .arrived⟩
    · obtain ⟨only, honly⟩ := List.length_eq_one_iff.mp (h.single n hn hne)
      rw [honly] at hedge
      obtain rfl := List.mem_singleton.mp hedge
      have hedge : m ∈ g.next n := honly ▸ List.mem_singleton_self m
      have hto' : g.Path head m := hto.tail hedge
      have hm : m ∈ g.cycleOf head := mem_cycleOf.mpr ⟨(lt_size_of_mem_next hedge).2, hto', hback⟩
      obtain ⟨passed, hchain⟩ := ih hm hto'
      exact ⟨n :: passed, .pass hne honly hchain⟩

/-- The chain from the body passes all nodes of the region. -/
theorem mem_of_mem_cycleOf (h : g.Ring head body) {passed : List NodeId}
    (hchain : g.Chain head body passed) (hn : n ∈ g.cycleOf head) : n = head ∨ n ∈ passed := by
  obtain ⟨-, hto, -⟩ := mem_cycleOf.mp hn
  -- along a way from the head, which stays in the region since it ends there
  induction hto with
  | refl => exact .inl rfl
  | @tail k n hto hedge ih =>
    have hk : k ∈ g.cycleOf head := mem_cycleOf_of_next hto hedge hn
    rcases ih hk with rfl | hpassed
    · obtain rfl := h.only n hedge hn
      cases hchain with
      | arrived => exact .inl rfl
      | pass => exact .inr List.mem_cons_self
    · exact hchain.next_of_mem hpassed hedge

/-- The region consists of the head and the nodes passed on the way from the body, each listed
once. -/
theorem perm (h : g.Ring head body) {passed : List NodeId} (hchain : g.Chain head body passed) :
    (g.cycleOf head).Perm (head :: passed) := by
  have hhead : head ∉ passed := fun hmem => (hchain.of_mem hmem).2.1 rfl
  have hnodup : (head :: passed).Nodup := List.nodup_cons.mpr ⟨hhead, hchain.nodup⟩
  obtain ⟨-, hto, -⟩ := mem_cycleOf.mp h.inside
  refine (List.perm_ext_iff_of_nodup (nodup_cycleOf g head) hnodup).mpr fun n => ?_
  constructor
  · intro hn
    exact List.mem_cons.mpr (h.mem_of_mem_cycleOf hchain hn)
  · intro hn
    rcases List.mem_cons.mp hn with rfl | hn
    · exact mem_cycleOf_self (lt_size_of_mem_next h.first).1
    · obtain ⟨hpath, hne, rest, hrest, -⟩ := hchain.of_mem hn
      obtain ⟨m, -, -, hnext, -⟩ := hrest.exists_tail hne
      have hedge : m ∈ g.next n := hnext ▸ List.mem_singleton_self m
      exact mem_cycleOf.mpr ⟨(lt_size_of_mem_next hedge).1, hto.trans hpath, hrest.path⟩

/-- What the nodes of the region add up to is what the head and the chain add up to. -/
theorem sum_eq (h : g.Ring head body) {passed : List NodeId} (hchain : g.Chain head body passed)
    (f : NodeId → Int) : ((g.cycleOf head).map f).sum = f head + (passed.map f).sum := by
  rw [((h.perm hchain).map f).sum_eq, List.map_cons, List.sum_cons]

end Ring

end IntervalFlow.Graph
