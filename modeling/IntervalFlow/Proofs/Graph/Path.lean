import IntervalFlow.Graph.Cycle
import Mathlib.Data.Finset.Card
import Mathlib.Data.List.Nodup
import Mathlib.Data.List.Perm.Subperm
import Mathlib.Data.List.TakeWhile
import Mathlib.Logic.Relation

/-!
# Paths — what can be reached along edges

The search of `reach` finds exactly the nodes at the end of a path, so that `onCycle` holds of
exactly the nodes with a path of at least one edge back to themselves. The components that
`components` collects are the classes of nodes that reach each other, and all queries about cycles
agree with them.
-/

namespace IntervalFlow

/-! ## Edges -/

namespace Draft

theorem mem_next {d : Draft} {a b : NodeId} :
    b ∈ d.next a ↔ ∃ e ∈ d.edges, e.source = a ∧ e.target = b := by
  simp only [next, List.mem_filterMap, Option.ite_none_right_eq_some, Option.some.injEq]

theorem mem_prev {d : Draft} {a b : NodeId} : a ∈ d.prev b ↔ b ∈ d.next a := by
  rw [mem_next]
  simp only [prev, List.mem_filterMap, Option.ite_none_right_eq_some, Option.some.injEq]
  constructor
  · rintro ⟨e, he, htarget, hsource⟩
    exact ⟨e, he, hsource, htarget⟩
  · rintro ⟨e, he, hsource, htarget⟩
    exact ⟨e, he, htarget, hsource⟩

theorem edge?_isSome {d : Draft} {a b : NodeId} : (d.edge? a b).isSome = true ↔ b ∈ d.next a := by
  rw [mem_next, edge?, List.find?_isSome]
  simp only [Bool.and_eq_true, decide_eq_true_eq]

theorem lt_size_of_edgeViolation? {d : Draft} {earlier edges : List Edge}
    (h : d.edgeViolation? earlier edges = none) :
    ∀ e ∈ edges, e.source < d.size ∧ e.target < d.size := by
  induction edges generalizing earlier with
  | nil => intro e he; cases he
  | cons e rest ih =>
    rw [edgeViolation?] at h
    split at h
    · cases h
    · rename_i hends
      split at h
      · cases h
      · intro f hf
        rcases List.mem_cons.mp hf with rfl | hf
        · obtain ⟨hsource, htarget⟩ := not_or.mp hends
          exact ⟨Nat.lt_of_not_le hsource, Nat.lt_of_not_le htarget⟩
        · exact ih h f hf

end Draft

namespace Graph

/-- Both ends of an edge are nodes. -/
theorem lt_size_of_mem_next {g : Graph} {a b : NodeId} (h : b ∈ g.next a) :
    a < g.size ∧ b < g.size := by
  have hedges : g.edgeViolation? [] g.edges = none := by
    have hfaultless := g.faultless
    rw [Draft.violation?, Option.or_eq_none_iff, Option.or_eq_none_iff] at hfaultless
    exact hfaultless.2.1
  obtain ⟨e, he, rfl, rfl⟩ := Draft.mem_next.mp h
  exact Draft.lt_size_of_edgeViolation? hedges e he

theorem mem_nodes {g : Graph} {n : NodeId} : n ∈ g.nodes ↔ n < g.size := List.mem_range

/-- A way from one node to another along edges. -/
abbrev Path (g : Graph) : NodeId → NodeId → Prop := Relation.ReflTransGen fun a b => b ∈ g.next a

/-- A way back to the node itself, of at least one edge. -/
def Cyclic (g : Graph) (n : NodeId) : Prop := Relation.TransGen (fun a b => b ∈ g.next a) n n

/-! ## Search -/

/-- What a search with enough rounds leaves unseen has no node of `todo` and no successor of a node
that was seen, and every node that it sees lies on a way from `todo`. -/
structure Explored (step : NodeId → List NodeId) (todo unseen left : List NodeId) : Prop where
  subset : ∀ n ∈ left, n ∈ unseen
  started : ∀ n ∈ todo, n ∉ left
  closed : ∀ n ∈ unseen, n ∉ left → ∀ m ∈ step n, m ∉ left
  sound : ∀ n ∈ unseen, n ∉ left → ∃ t ∈ todo, Relation.ReflTransGen (fun a b => b ∈ step a) t n

theorem explore_explored {step : NodeId → List NodeId} {rounds : Nat} {todo unseen : List NodeId}
    (hnodup : unseen.Nodup) (hrounds : unseen.length ≤ rounds) :
    Explored step todo unseen (explore step rounds todo unseen) := by
  induction rounds generalizing todo unseen with
  | zero =>
    obtain rfl := List.length_eq_zero_iff.mp (Nat.le_zero.mp hrounds)
    exact ⟨fun n hn => hn, fun n _ => List.not_mem_nil, fun n hn => absurd hn List.not_mem_nil,
      fun n hn => absurd hn List.not_mem_nil⟩
  | succ rounds ih =>
    rw [explore]
    -- what is dropped from `todo` was seen before
    have hsplit (n : NodeId) (hn : n ∈ todo) (hunseen : n ∈ unseen) :
        n ∈ todo.dropWhile (· ∉ unseen) := by
      rw [← List.takeWhile_append_dropWhile (p := (· ∉ unseen)) (l := todo)] at hn
      rcases List.mem_append.mp hn with hn | hn
      · have hseen := List.mem_takeWhile_imp hn
        exact absurd hunseen (of_decide_eq_true hseen)
      · exact hn
    split
    · rename_i hdrop
      refine ⟨fun n hn => hn, fun n hn hunseen => ?_, fun n hn hseen => absurd hn hseen,
        fun n hn hseen => absurd hn hseen⟩
      have := hsplit n hn hunseen
      rw [hdrop] at this
      cases this
    · rename_i node rest hdrop
      have hnode : node ∈ unseen := by
        have := List.head?_dropWhile_not (fun n => decide (n ∉ unseen)) todo
        rw [hdrop] at this
        simpa using this
      have hkept (n : NodeId) (hn : n ∈ node :: rest) : n ∈ todo :=
        (List.dropWhile_sublist _).subset (hdrop ▸ hn)
      have hlength : (unseen.erase node).length ≤ rounds := by
        rw [List.length_erase_of_mem hnode]
        omega
      obtain ⟨hsubset, htodo, hclosed, hsound⟩ :=
        @ih (step node ++ rest) (unseen.erase node) (hnodup.erase node) hlength
      refine ⟨fun n hn => List.mem_of_mem_erase (hsubset n hn), fun n hn hleft => ?_,
        fun n hn hseen m hm => ?_, fun n hn hseen => ?_⟩
      · have hmem := hsplit n hn (List.mem_of_mem_erase (hsubset n hleft))
        rw [hdrop] at hmem
        rcases List.mem_cons.mp hmem with rfl | hmem
        · exact hnodup.not_mem_erase (hsubset n hleft)
        · exact htodo n (List.mem_append_right _ hmem) hleft
      · by_cases hne : n = node
        · subst hne
          exact htodo m (List.mem_append_left _ hm)
        · exact hclosed n ((List.mem_erase_of_ne hne).mpr hn) hseen m hm
      · by_cases hne : n = node
        · exact ⟨node, hkept node List.mem_cons_self, hne ▸ .refl⟩
        · obtain ⟨t, ht, hpath⟩ := hsound n ((List.mem_erase_of_ne hne).mpr hn) hseen
          rcases List.mem_append.mp ht with ht | ht
          · exact ⟨node, hkept node List.mem_cons_self, .head ht hpath⟩
          · exact ⟨t, hkept t (List.mem_cons_of_mem _ ht), hpath⟩

/-- A search along `step` finds the nodes of the graph at the end of a way. -/
theorem mem_reach {g : Graph} {step : NodeId → List NodeId} {n m : NodeId}
    (hstep : ∀ a b, b ∈ step a → a < g.size) :
    m ∈ g.reach step n ↔ m < g.size ∧ Relation.ReflTransGen (fun a b => b ∈ step a) n m := by
  have hexplored : Explored step [n] g.nodes (explore step g.size [n] g.nodes) := by
    refine explore_explored List.nodup_range ?_
    exact List.length_range.le
  rw [reach, List.mem_filter, mem_nodes, decide_eq_true_eq]
  refine and_congr_right fun hm => ⟨fun hseen => ?_, fun hpath => ?_⟩
  · obtain ⟨t, ht, hpath⟩ := hexplored.sound m (mem_nodes.mpr hm) hseen
    rwa [List.mem_singleton.mp ht] at hpath
  · clear hm
    induction hpath with
    | refl => exact hexplored.started n List.mem_cons_self
    | tail _ hlast ih => exact hexplored.closed _ (mem_nodes.mpr (hstep _ _ hlast)) ih _ hlast

theorem mem_reach_next {g : Graph} {n m : NodeId} :
    m ∈ g.reach g.next n ↔ m < g.size ∧ g.Path n m :=
  mem_reach fun _ _ h => (lt_size_of_mem_next h).1

theorem mem_reach_prev {g : Graph} {n m : NodeId} :
    m ∈ g.reach g.prev n ↔ m < g.size ∧ g.Path m n := by
  rw [mem_reach fun _ _ h => (lt_size_of_mem_next (Draft.mem_prev.mp h)).2]
  refine and_congr_right fun _ => ?_
  simp only [Draft.mem_prev]
  exact Relation.reflTransGen_swap

/-! ## Cycles -/

theorem mem_cycleOf {g : Graph} {n m : NodeId} :
    m ∈ g.cycleOf n ↔ m < g.size ∧ g.Path n m ∧ g.Path m n := by
  rw [cycleOf, List.mem_filter, decide_eq_true_eq, mem_reach_next, mem_reach_prev]
  constructor
  · rintro ⟨⟨hm, hto⟩, -, hback⟩
    exact ⟨hm, hto, hback⟩
  · rintro ⟨hm, hto, hback⟩
    exact ⟨⟨hm, hto⟩, hm, hback⟩

theorem nodup_cycleOf (g : Graph) (n : NodeId) : (g.cycleOf n).Nodup :=
  (List.nodup_range.filter _).filter _

theorem onCycle_iff {g : Graph} {n : NodeId} : g.onCycle n = true ↔ g.Cyclic n := by
  rw [onCycle, Bool.or_eq_true, Draft.edge?_isSome, decide_eq_true_eq]
  constructor
  · rintro (hedge | hlength)
    · exact .single hedge
    · obtain ⟨m, hm, hne⟩ : ∃ m ∈ g.cycleOf n, m ≠ n := by
        by_contra hall
        push Not at hall
        -- a list without repetition in which all are equal has no two members
        have hsub : g.cycleOf n ⊆ [n] := fun m hm => List.mem_singleton.mpr (hall m hm)
        have := (List.subperm_of_subset (nodup_cycleOf g n) hsub).length_le
        simp only [List.length_singleton] at this
        omega
      obtain ⟨-, hto, hback⟩ := mem_cycleOf.mp hm
      rcases Relation.reflTransGen_iff_eq_or_transGen.mp hto with heq | hto
      · exact absurd heq hne
      · exact Relation.TransGen.trans_left hto hback
  · intro hcycle
    obtain ⟨m, hedge, hback⟩ := Relation.TransGen.head'_iff.mp hcycle
    obtain ⟨hn, hm⟩ := lt_size_of_mem_next hedge
    by_cases hne : m = n
    · exact .inl (hne ▸ hedge)
    · right
      have hpair : [n, m].Nodup := by simpa using Ne.symm hne
      have hsub : [n, m] ⊆ g.cycleOf n := by
        intro k hk
        rcases List.mem_pair.mp hk with rfl | rfl
        · exact mem_cycleOf.mpr ⟨hn, .refl, .refl⟩
        · exact mem_cycleOf.mpr ⟨hm, .single hedge, hback⟩
      exact (List.subperm_of_subset hpair hsub).length_le

/-- Along edges of a kind that close no cycle, every way back ends. -/
theorem wellFounded_of_edges {g : Graph} {r : NodeId → NodeId → Prop}
    (hr : ∀ a b, r a b → b ∈ g.next a) (h : ∀ n, ¬ Relation.TransGen r n n) : WellFounded r := by
  classical
  let before (n : NodeId) : Finset NodeId := {m ∈ Finset.range g.size | Relation.TransGen r m n}
  refine Subrelation.wf (fun {a b} hab => ?_) (measure fun n => (before n).card).wf
  -- whatever comes before `a` comes before `b`, and so does `a`
  refine Finset.card_lt_card (Finset.ssubset_iff_of_subset ?_ |>.mpr ⟨a, ?_, ?_⟩)
  · intro m hm
    rw [Finset.mem_filter] at hm ⊢
    exact ⟨hm.1, hm.2.tail hab⟩
  · rw [Finset.mem_filter, Finset.mem_range]
    exact ⟨(lt_size_of_mem_next (hr a b hab)).1, .single hab⟩
  · rw [Finset.mem_filter]
    exact fun hmem => h a hmem.2

/-! ## Components -/

theorem lt_size_of_mem_cycleOf {g : Graph} {n m : NodeId} (h : m ∈ g.cycleOf n) :
    n < g.size ∧ m < g.size := by
  obtain ⟨hm, hto, -⟩ := mem_cycleOf.mp h
  refine ⟨?_, hm⟩
  rcases Relation.reflTransGen_iff_eq_or_transGen.mp hto with rfl | hto
  · exact hm
  · obtain ⟨k, hedge, -⟩ := Relation.TransGen.head'_iff.mp hto
    exact (lt_size_of_mem_next hedge).1

theorem mem_cycleOf_self {g : Graph} {n : NodeId} (h : n < g.size) : n ∈ g.cycleOf n :=
  mem_cycleOf.mpr ⟨h, .refl, .refl⟩

theorem pairwise_cycleOf (g : Graph) (n : NodeId) : (g.cycleOf n).Pairwise (· < ·) :=
  (List.pairwise_lt_range.filter _).filter _

/-- All nodes of a component have the same component. -/
theorem cycleOf_eq_of_mem {g : Graph} {n m : NodeId} (h : m ∈ g.cycleOf n) :
    g.cycleOf m = g.cycleOf n := by
  obtain ⟨-, hto, hback⟩ := mem_cycleOf.mp h
  have hperm : (g.cycleOf m).Perm (g.cycleOf n) := by
    refine (List.perm_ext_iff_of_nodup (nodup_cycleOf g m) (nodup_cycleOf g n)).mpr fun k => ?_
    rw [mem_cycleOf, mem_cycleOf]
    constructor
    · rintro ⟨hk, hmk, hkm⟩
      exact ⟨hk, hto.trans hmk, hkm.trans hback⟩
    · rintro ⟨hk, hnk, hkn⟩
      exact ⟨hk, hback.trans hnk, hkn.trans hto⟩
  exact hperm.eq_of_pairwise (fun a b _ _ hab hba => absurd hba (Nat.lt_asymm hab))
    (pairwise_cycleOf g m) (pairwise_cycleOf g n)

/-- The components of the nodes in `seen` were found, each of them once. -/
structure Found (g : Graph) (seen : List NodeId) (found : List (List NodeId)) : Prop where
  sound : ∀ c ∈ found, ∃ n ∈ seen, c = g.cycleOf n
  complete : ∀ n ∈ seen, g.cycleOf n ∈ found
  disjoint : found.Pairwise List.Disjoint

theorem Found.add {g : Graph} {seen : List NodeId} {found : List (List NodeId)}
    (h : g.Found seen found) {node : NodeId} (hnode : node < g.size) :
    g.Found (seen ++ [node]) (g.addComponent found node) := by
  have hseen {n : NodeId} (hn : n ∈ seen ++ [node]) : n ∈ seen ∨ n = node := by
    simpa using hn
  unfold addComponent
  split
  · rename_i hany
    obtain ⟨c, hc, hmem⟩ := List.any_eq_true.mp hany
    obtain ⟨m, hm, rfl⟩ := h.sound c hc
    have hsame := cycleOf_eq_of_mem (of_decide_eq_true hmem)
    refine ⟨fun c hc => ?_, fun n hn => ?_, h.disjoint⟩
    · obtain ⟨n, hn, heq⟩ := h.sound c hc
      exact ⟨n, List.mem_append_left _ hn, heq⟩
    · rcases hseen hn with hn | rfl
      · exact h.complete n hn
      · exact hsame ▸ hc
  · rename_i hnone
    refine ⟨fun c hc => ?_, fun n hn => ?_, ?_⟩
    · rcases List.mem_append.mp hc with hc | hc
      · obtain ⟨n, hn, heq⟩ := h.sound c hc
        exact ⟨n, List.mem_append_left _ hn, heq⟩
      · exact ⟨node, List.mem_append_right _ List.mem_cons_self, List.mem_singleton.mp hc⟩
    · rcases hseen hn with hn | rfl
      · exact List.mem_append_left _ (h.complete n hn)
      · exact List.mem_append_right _ List.mem_cons_self
    · refine List.pairwise_append.mpr ⟨h.disjoint, List.pairwise_singleton .., ?_⟩
      intro c hc c' hc' k hk hk'
      -- a node in common would make the two components one, to which `node` belongs
      obtain ⟨m, -, rfl⟩ := h.sound c hc
      obtain rfl := List.mem_singleton.mp hc'
      have hsame : g.cycleOf node = g.cycleOf m :=
        (cycleOf_eq_of_mem hk').symm.trans (cycleOf_eq_of_mem hk)
      apply hnone
      rw [List.any_eq_true]
      exact ⟨_, hc, decide_eq_true (hsame ▸ mem_cycleOf_self hnode)⟩

theorem found_components (g : Graph) : g.Found g.nodes g.components := by
  have hfold (rest seen : List NodeId) (found : List (List NodeId)) (h : g.Found seen found)
      (hrest : ∀ n ∈ rest, n < g.size) :
      g.Found (seen ++ rest) (rest.foldl g.addComponent found) := by
    induction rest generalizing seen found with
    | nil => rwa [List.append_nil]
    | cons node rest ih =>
      rw [List.foldl_cons, List.append_cons]
      refine ih _ _ (h.add (hrest node List.mem_cons_self)) ?_
      intro n hn
      exact hrest n (List.mem_cons_of_mem node hn)
  have hempty : g.Found [] [] :=
    ⟨fun c hc => absurd hc List.not_mem_nil, fun n hn => absurd hn List.not_mem_nil, .nil⟩
  exact hfold g.nodes [] [] hempty fun n hn => mem_nodes.mp hn

theorem mem_components {g : Graph} {c : List NodeId} :
    c ∈ g.components ↔ ∃ n < g.size, c = g.cycleOf n := by
  constructor
  · intro hc
    obtain ⟨n, hn, heq⟩ := g.found_components.sound c hc
    exact ⟨n, mem_nodes.mp hn, heq⟩
  · rintro ⟨n, hn, rfl⟩
    exact g.found_components.complete n (mem_nodes.mpr hn)

theorem eq_cycleOf_of_mem {g : Graph} {c : List NodeId} {n : NodeId} (hc : c ∈ g.components)
    (hn : n ∈ c) : c = g.cycleOf n := by
  obtain ⟨m, -, rfl⟩ := mem_components.mp hc
  exact (cycleOf_eq_of_mem hn).symm

/-- Every node is listed in one component, and there only once. -/
theorem components_perm (g : Graph) : g.components.flatten.Perm g.nodes := by
  have hnodup : g.components.flatten.Nodup := by
    refine List.nodup_flatten.mpr ⟨fun c hc => ?_, g.found_components.disjoint⟩
    obtain ⟨n, -, rfl⟩ := mem_components.mp hc
    exact nodup_cycleOf g n
  refine (List.perm_ext_iff_of_nodup hnodup List.nodup_range).mpr fun n => ?_
  rw [List.mem_flatten]
  constructor
  · rintro ⟨c, hc, hn⟩
    obtain ⟨m, -, rfl⟩ := mem_components.mp hc
    exact mem_nodes.mpr (lt_size_of_mem_cycleOf hn).2
  · intro hn
    have hn := mem_nodes.mp hn
    exact ⟨g.cycleOf n, mem_components.mpr ⟨n, hn, rfl⟩, mem_cycleOf_self hn⟩

/-- The component in which a node is found is its own. -/
theorem find?_components (g : Graph) (n : NodeId) :
    (g.components.find? (n ∈ ·)).getD [] = g.cycleOf n := by
  cases hfind : g.components.find? (n ∈ ·) with
  | some c =>
    have hn := List.find?_some hfind
    exact eq_cycleOf_of_mem (List.mem_of_find?_eq_some hfind) (of_decide_eq_true hn)
  | none =>
    have hmissing : ¬ n < g.size := by
      intro hn
      have hnone := List.find?_eq_none.mp hfind _ (mem_components.mpr ⟨n, hn, rfl⟩)
      exact hnone (decide_eq_true (mem_cycleOf_self hn))
    symm
    rw [Option.getD_none, List.eq_nil_iff_forall_not_mem]
    intro m hm
    exact hmissing (lt_size_of_mem_cycleOf hm).1

/-- A component loops exactly if its nodes can be reached again. -/
theorem loops_cycleOf {g : Graph} {n : NodeId} (h : n < g.size) :
    g.loops (g.cycleOf n) = g.onCycle n := by
  have hself := mem_cycleOf_self h
  unfold onCycle
  rcases hcycle : g.cycleOf n with _ | ⟨first, _ | ⟨second, rest⟩⟩
  · rw [hcycle] at hself
    cases hself
  · rw [hcycle] at hself
    obtain rfl := List.mem_singleton.mp hself
    simp [loops]
  · simp [loops]

theorem mem_cyclicNodes_iff_onCycle {g : Graph} {n : NodeId} :
    n ∈ g.cyclicNodes ↔ n < g.size ∧ g.onCycle n = true := by
  simp only [cyclicNodes, List.mem_filter, mem_nodes, List.any_eq_true, decide_eq_true_eq]
  refine and_congr_right fun hn => ⟨?_, fun hcycle => ?_⟩
  · rintro ⟨c, ⟨hc, hloops⟩, hmem⟩
    rwa [eq_cycleOf_of_mem hc hmem, loops_cycleOf hn] at hloops
  · refine ⟨g.cycleOf n, ⟨mem_components.mpr ⟨n, hn, rfl⟩, ?_⟩, mem_cycleOf_self hn⟩
    rw [loops_cycleOf hn, hcycle]

theorem Cyclic.lt_size {g : Graph} {n : NodeId} (h : g.Cyclic n) : n < g.size := by
  obtain ⟨m, hedge, -⟩ := Relation.TransGen.head'_iff.mp h
  exact (lt_size_of_mem_next hedge).1

theorem mem_cyclicNodes {g : Graph} {n : NodeId} : n ∈ g.cyclicNodes ↔ g.Cyclic n := by
  rw [mem_cyclicNodes_iff_onCycle, onCycle_iff]
  exact ⟨And.right, fun hcycle => ⟨hcycle.lt_size, hcycle⟩⟩

/-- The queries about cycles agree with paths and with each other. Every node is in one component
and has the one in which it is found; two nodes share it exactly if each can be reached from the
other. A node is on a cycle exactly if some successor leads back to it, and the nodes collected from
the components that loop are the nodes on cycles. An index that is no node has no component and is
on no cycle. -/
theorem cycle_queries (g : Graph) :
    g.components.flatten.Perm g.nodes ∧
    (∀ n, (g.components.find? (n ∈ ·)).getD [] = g.cycleOf n) ∧
    (∀ n m, n < g.size → m < g.size → (m ∈ g.cycleOf n ↔ g.Path n m ∧ g.Path m n)) ∧
    (∀ n, g.onCycle n = true ↔ ∃ m ∈ g.next n, g.Path m n) ∧
    (∀ n, n ∈ g.cyclicNodes ↔ n < g.size ∧ g.onCycle n = true) ∧
    ∀ n, g.size ≤ n → g.cycleOf n = [] ∧ g.onCycle n = false := by
  refine ⟨g.components_perm, g.find?_components, fun n m _ hm => ?_, fun n => ?_, fun n => ?_,
    fun n hn => ⟨?_, ?_⟩⟩
  · exact mem_cycleOf.trans (and_iff_right hm)
  · rw [onCycle_iff, Cyclic, Relation.TransGen.head'_iff]
  · exact mem_cyclicNodes_iff_onCycle
  · rw [List.eq_nil_iff_forall_not_mem]
    intro m hm
    exact absurd (lt_size_of_mem_cycleOf hm).1 (Nat.not_lt.mpr hn)
  · rw [Bool.eq_false_iff, ne_eq, onCycle_iff]
    intro hcycle
    exact absurd hcycle.lt_size (Nat.not_lt.mpr hn)

/-! ### A ring and a node that leads to itself

The nodes `1` and `2` lead to each other, and `3` leads to itself -/

def ringAndLoop : Graph where
  kinds := .replicate 5 (.literal none)
  edges := [⟨0, 1, none⟩, ⟨1, 2, none⟩, ⟨2, 1, none⟩, ⟨2, 3, none⟩, ⟨3, 3, none⟩, ⟨3, 4, none⟩]
  faultless := by decide +kernel

/-- The ring is one component and every other node is alone in its own, which loops only for the
node that leads to itself. -/
theorem ringAndLoop_queries :
    ringAndLoop.cycleOf 2 = [1, 2] ∧ (ringAndLoop.Path 2 1 ∧ ringAndLoop.Path 1 2) ∧
    ringAndLoop.cycleOf 3 = [3] ∧ ringAndLoop.onCycle 3 = true ∧
    ringAndLoop.cyclicNodes = [1, 2, 3] ∧ ringAndLoop.onCycle 0 = false ∧
    (¬ ∃ m ∈ ringAndLoop.next 0, ringAndLoop.Path m 0) ∧
    ringAndLoop.cycleOf 5 = [] ∧ ringAndLoop.onCycle 5 = false := by
  obtain ⟨-, hfind, hshare, hon, hcyclic, houtside⟩ := cycle_queries ringAndLoop
  have hring : ringAndLoop.cycleOf 2 = [1, 2] := by
    rw [← hfind]
    decide +kernel
  have hloop : ringAndLoop.cycleOf 3 = [3] := by
    rw [← hfind]
    decide +kernel
  have hnodes : ringAndLoop.cyclicNodes = [1, 2, 3] := by decide +kernel
  have hfree : ringAndLoop.onCycle 0 = false := by decide +kernel
  refine ⟨hring, ?_, hloop, ?_, hnodes, hfree, ?_, houtside 5 (by decide)⟩
  · refine (hshare 2 1 (by decide) (by decide)).mp ?_
    rw [hring]
    decide
  · refine ((hcyclic 3).mp ?_).2
    rw [hnodes]
    decide
  · rw [← hon 0, hfree]
    decide

end Graph

end IntervalFlow
