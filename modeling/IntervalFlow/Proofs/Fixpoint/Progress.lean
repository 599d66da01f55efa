import IntervalFlow.Fixpoint.Progress
import Mathlib.Data.List.Nodup
import Mathlib.Logic.Function.Basic
import Mathlib.Logic.Relation

/-!
# Progress — queues and statuses

What the operations on a running analysis do to its queue and to the statuses: a queue stays
`Consistent` under `push` and `pop?`, and promotions are chains of `Raise` steps, each of which moves
one node strictly up.
-/

namespace IntervalFlow

/-! ## Queues -/

namespace Queue

/-- The record of waiting nodes agrees with the two lists, and no node waits twice. -/
structure Consistent (q : Queue) : Prop where
  queued_iff : ∀ n, n ∈ q.queued ↔ n ∈ q.ascending ++ q.descending
  nodup : (q.ascending ++ q.descending).Nodup
  queued_nodup : q.queued.Nodup

theorem Consistent.mem_queued_of_descending {q : Queue} (h : q.Consistent) {n : NodeId}
    (hn : n ∈ q.descending) : n ∈ q.queued :=
  (h.queued_iff n).mpr (List.mem_append_right _ hn)

theorem Consistent.empty : Queue.empty.Consistent :=
  ⟨fun _ => Iff.rfl, List.nodup_nil, List.nodup_nil⟩

theorem mem_queued_push {q : Queue} {n m : NodeId} {descends : Bool} :
    m ∈ (q.push n descends).queued ↔ m = n ∨ m ∈ q.queued := by
  unfold push
  split
  · constructor
    · exact .inr
    · rintro (rfl | h)
      · assumption
      · exact h
  · split <;> exact List.mem_cons

theorem mem_descending_push {q : Queue} {n m : NodeId} {descends : Bool}
    (h : m ∈ (q.push n descends).descending) : m ∈ q.descending ∨ m = n ∧ descends = true := by
  unfold push at h
  split at h
  · exact .inl h
  · split at h
    · rename_i hd
      rcases List.mem_append.mp h with h | h
      · exact .inl h
      · exact .inr ⟨List.mem_singleton.mp h, hd⟩
    · exact .inl h

theorem Consistent.push {q : Queue} (h : q.Consistent) (n : NodeId) (descends : Bool) :
    (q.push n descends).Consistent := by
  obtain ⟨hiff, hnodup, hqueued⟩ := h
  unfold Queue.push
  split
  · exact ⟨hiff, hnodup, hqueued⟩
  · rename_i hn
    have hfresh : n ∉ q.ascending ++ q.descending := fun h => hn ((hiff n).mpr h)
    have hperm : (n :: (q.ascending ++ q.descending)).Perm
        (q.ascending ++ ([n] ++ q.descending)) := List.perm_middle.symm
    split
    · refine ⟨fun m => ?_, ?_, List.nodup_cons.mpr ⟨hn, hqueued⟩⟩
      · simp only [List.mem_cons, hiff, List.mem_append, List.mem_nil_iff, or_false]
        tauto
      · rw [← List.append_assoc]
        exact (List.nodup_append_comm.mp (List.nodup_cons.mpr ⟨hfresh, hnodup⟩))
    · refine ⟨fun m => ?_, ?_, List.nodup_cons.mpr ⟨hn, hqueued⟩⟩
      · simp only [List.mem_cons, hiff, List.mem_append, List.mem_nil_iff, or_false]
        tauto
      · rw [List.append_assoc]
        exact hperm.nodup_iff.mp (List.nodup_cons.mpr ⟨hfresh, hnodup⟩)

/-- Taking a node out of a consistent queue: it no longer waits, and all others still do. -/
theorem Consistent.pop {q q' : Queue} {n : NodeId} (h : q.Consistent)
    (hpop : q.pop? = some (n, q')) :
    q'.Consistent ∧ n ∉ q'.queued ∧ (∀ m, m ∈ q.queued ↔ m = n ∨ m ∈ q'.queued) ∧
      ∀ m ∈ q'.descending, m ∈ q.descending := by
  obtain ⟨ascending, descending, queued⟩ := q
  obtain ⟨hiff, hnodup, hqueued⟩ := h
  have hpopped : ∃ rest, rest = q'.ascending ++ q'.descending ∧
      ascending ++ descending = n :: rest ∧ q'.queued = queued.erase n ∧
        ∀ m ∈ q'.descending, m ∈ descending := by
    cases ascending with
    | cons a rest =>
      cases hpop
      exact ⟨_, rfl, rfl, rfl, fun _ hm => hm⟩
    | nil =>
      cases descending with
      | nil => cases hpop
      | cons a rest =>
        cases hpop
        exact ⟨_, rfl, rfl, rfl, fun m hm => List.mem_cons_of_mem _ hm⟩
  obtain ⟨rest, hrest, hsplit, hq, hdesc⟩ := hpopped
  simp only [hsplit] at hiff hnodup
  have hn := (List.nodup_cons.mp hnodup).1
  have hmem (m : NodeId) : m ∈ q'.queued ↔ m ∈ rest := by
    rw [hq, hqueued.mem_erase_iff, hiff, List.mem_cons]
    constructor
    · rintro ⟨hne, rfl | hm⟩
      · exact absurd rfl hne
      · exact hm
    · intro hm
      refine ⟨?_, .inr hm⟩
      rintro rfl
      exact hn hm
  refine ⟨⟨fun m => ?_, ?_, ?_⟩, fun h => hn ((hmem n).mp h), fun m => ?_, hdesc⟩
  · rw [hmem, hrest]
  · rw [← hrest]
    exact (List.nodup_cons.mp hnodup).2
  · rw [hq]
    exact hqueued.erase n
  · rw [hiff, List.mem_cons, hmem]

theorem Consistent.pop_none {q : Queue} (h : q.Consistent) (hpop : q.pop? = none) (n : NodeId) :
    n ∉ q.queued := by
  obtain ⟨ascending, descending, queued⟩ := q
  rw [h.queued_iff]
  cases ascending with
  | cons a rest => cases hpop
  | nil =>
    cases descending with
    | cons a rest => cases hpop
    | nil => exact List.not_mem_nil

end Queue

/-! ## Statuses -/

namespace Status

/-- One node moves strictly up, and no other moves. -/
def Raise (f g : NodeId → Status) : Prop := ∃ n st, f n < st ∧ g = Function.update f n st

/-- Nodes move strictly up, one after the other. -/
abbrev Raised := Relation.ReflTransGen Raise

theorem lt_done_iff {a : Status} : a < done ↔ a ≠ done := by
  cases a <;> decide

theorem eq_narrowing {a : Status} (hunvisited : a ≠ unvisited) (hwidening : a ≠ widening)
    (hdone : a ≠ done) : a = narrowing := by
  cases a <;> simp_all

end Status

namespace Progress

theorem statusOf_setStatus (p : Progress) (n : NodeId) (st : Status) :
    (p.setStatus n st).statusOf = Function.update p.statusOf n st := by
  funext m
  simp only [statusOf, setStatus, Table.get?_set, Function.update_apply]
  split <;> rfl

theorem raised_setStatus {p : Progress} {n : NodeId} {st : Status}
    (h : p.statusOf n < st ∨ p.statusOf n = st) :
    Status.Raised p.statusOf (p.setStatus n st).statusOf := by
  rw [statusOf_setStatus]
  rcases h with h | rfl
  · exact .single ⟨n, st, h, rfl⟩
  · rw [Function.update_eq_self]

@[simp] theorem statusOf_setGeneral (p : Progress) (n : NodeId) (v : Interval) :
    (p.setGeneral n v).statusOf = p.statusOf := rfl

@[simp] theorem statusOf_setIncoming (p : Progress) (n : NodeId) (v : Interval) :
    (p.setIncoming n v).statusOf = p.statusOf := rfl

theorem mem_markVisited {p : Progress} {n m : NodeId} :
    m ∈ (p.markVisited n).visited ↔ m = n ∨ m ∈ p.visited := by
  unfold markVisited
  split
  · constructor
    · exact .inr
    · rintro (rfl | h)
      · assumption
      · exact h
  · exact List.mem_cons

/-- Marking a node as visited touches nothing but the list of visited nodes. -/
theorem markVisited_frame (p : Progress) (n : NodeId) : (p.markVisited n).statuses = p.statuses ∧
    (p.markVisited n).incoming = p.incoming ∧ (p.markVisited n).queue = p.queue ∧
      (p.markVisited n).general = p.general := by
  unfold markVisited
  split <;> exact ⟨rfl, rfl, rfl, rfl⟩

/-! ## Promotions -/

/-- A promotion touches statuses only: each node keeps its own, or it is listed and moves up to
`st`. -/
theorem foldl_promote (st : Status) (nodes : List NodeId) (p : Progress) (promoted : List NodeId) :
    ∃ statuses, (nodes.foldl (promote st) (p, promoted)).1 = { p with statuses } ∧
      Status.Raised p.statusOf ({ p with statuses } : Progress).statusOf ∧
      ∀ n, ({ p with statuses } : Progress).statusOf n = p.statusOf n ∨
        n ∈ nodes ∧ p.statusOf n < st ∧ ({ p with statuses } : Progress).statusOf n = st := by
  induction nodes generalizing p promoted with
  | nil => exact ⟨p.statuses, rfl, .refl, fun n => .inl rfl⟩
  | cons a rest ih =>
    rw [List.foldl_cons]
    by_cases ha : p.statusOf a < st
    · rw [promote, if_pos ha]
      obtain ⟨statuses, heq, hraised, hstatus⟩ := ih (p.setStatus a st) (a :: promoted)
      refine ⟨statuses, heq, (raised_setStatus (.inl ha)).trans hraised, fun n => ?_⟩
      have hn := hstatus n
      rw [statusOf_setStatus] at hn
      by_cases hna : n = a
      · subst hna
        rw [Function.update_self] at hn
        refine .inr ⟨List.mem_cons_self, ha, ?_⟩
        rcases hn with hn | ⟨-, -, hn⟩
        · exact hn
        · exact hn
      · rw [Function.update_of_ne hna] at hn
        exact hn.imp_right fun ⟨hmem, hlt⟩ => ⟨List.mem_cons_of_mem a hmem, hlt⟩
    · rw [promote, if_neg ha]
      obtain ⟨statuses, heq, hraised, hstatus⟩ := ih p promoted
      refine ⟨statuses, heq, hraised, fun n => ?_⟩
      exact (hstatus n).imp_right fun ⟨hmem, hlt⟩ => ⟨List.mem_cons_of_mem a hmem, hlt⟩

theorem promoteAll_spec (p : Progress) (st : Status) (nodes : List NodeId) :
    ∃ statuses, (p.promoteAll st nodes).1 = { p with statuses } ∧
      Status.Raised p.statusOf ({ p with statuses } : Progress).statusOf ∧
      ∀ n, ({ p with statuses } : Progress).statusOf n = p.statusOf n ∨
        n ∈ nodes ∧ p.statusOf n < st ∧ ({ p with statuses } : Progress).statusOf n = st :=
  foldl_promote st nodes p []

end Progress

end IntervalFlow
