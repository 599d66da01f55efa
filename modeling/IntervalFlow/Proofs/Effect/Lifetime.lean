import IntervalFlow.Proofs.Effect.Soundness
import IntervalFlow.Proofs.Interval.Chain
import Mathlib.Algebra.Order.BigOperators.Group.List
import Mathlib.Data.Finset.Card

/-!
# Lifetimes

The loop of rounds ends (`lifetimes_rounds`): under widening every change raises the `rank` of a
lifetime, and no rank exceeds three, so that some round changes nothing and leaves the lifetimes
`Stable`. Stable lifetimes are closed under every write (`lifetimes_inductive`), and they cover
every value that writes of the graph can leave in a variable (`Arises.covered`).
-/

namespace IntervalFlow

namespace Lifetime

variable {g : Graph}

/-- The ranks of the lifetimes of some declarations, taken together. -/
def totalRank (ds : List NodeId) (lifetimes : Store NodeId) : Nat :=
  (ds.map fun d => (lifetimes.valueOf d).rank).sum

theorem totalRank_le (ds : List NodeId) (lifetimes : Store NodeId) :
    totalRank ds lifetimes ≤ 3 * ds.length := by
  induction ds with
  | nil => exact Nat.zero_le _
  | cons d rest ih =>
    have hrank := (lifetimes.valueOf d).rank_le
    simp only [totalRank, List.map_cons, List.sum_cons, List.length_cons] at ih ⊢
    omega

theorem valueOf_set (lifetimes : Store NodeId) (d d' : NodeId) (value : Interval) :
    Store.valueOf (lifetimes.set d value) d' = if d' = d then value else lifetimes.valueOf d' := by
  rw [Store.valueOf, Table.get?_set]
  split <;> rfl

/-- Raising the rank of one lifetime raises the total. -/
theorem totalRank_set {ds : List NodeId} {lifetimes : Store NodeId} {d : NodeId} {value : Interval}
    (hd : d ∈ ds) (h : (lifetimes.valueOf d).rank < value.rank) :
    totalRank ds lifetimes < totalRank ds (lifetimes.set d value) := by
  have hle (d' : NodeId) :
      (lifetimes.valueOf d').rank ≤ (Store.valueOf (lifetimes.set d value) d').rank := by
    rw [valueOf_set]
    split
    · rename_i heq
      rw [heq]
      exact h.le
    · exact le_rfl
  have hlt : (lifetimes.valueOf d).rank < (Store.valueOf (lifetimes.set d value) d).rank := by
    rw [valueOf_set, if_pos rfl]
    exact h
  exact List.sum_lt_sum _ _ (fun d' _ => hle d') ⟨d, hd, hlt⟩

/-! ## Rounds -/

/-- No write adds anything to the lifetimes. -/
def Stable (g : Graph) (ws : List Write) (lifetimes : Store NodeId) : Prop :=
  ∀ w ∈ ws, (written g lifetimes w).isWithin (lifetimes.valueOf w.declaration) = true

theorem written_isWithin_grown {lifetimes : Store NodeId} (h : lifetimes.WellFormed) (index : Nat)
    (w : Write) : (written g lifetimes w).isWithin (grown g index lifetimes w) = true := by
  have hcurrent := h.valueOf w.declaration
  have hwritten := wellFormed_written (g := g) h w
  have hjoined := Interval.isWithin_join_right hcurrent hwritten
  simp only [grown]
  split
  · exact Interval.isWithin_trans hjoined
      (Interval.isWithin_widen_right hcurrent (Interval.wellFormed_join hcurrent hwritten))
  · exact hjoined

/-- A round that reports no change found every lifetime as grown as it can be. -/
theorem foldl_step_unchanged {ws : List Write} {index : Nat} {lifetimes next : Store NodeId}
    {changed : Bool} (h : ws.foldl (step g index) (lifetimes, changed) = (next, false)) :
    changed = false ∧ next = lifetimes ∧
      ∀ w ∈ ws, grown g index lifetimes w = lifetimes.valueOf w.declaration := by
  induction ws generalizing lifetimes changed with
  | nil =>
    cases h
    refine ⟨rfl, rfl, ?_⟩
    intro w hw
    cases hw
  | cons w rest ih =>
    rw [List.foldl_cons, step] at h
    split at h
    · rename_i hsame
      obtain ⟨hchanged, hnext, hrest⟩ := ih h
      refine ⟨hchanged, hnext, ?_⟩
      intro w' hw'
      rcases List.mem_cons.mp hw' with rfl | hw'
      · exact hsame
      · exact hrest w' hw'
    · cases (ih h).1

theorem stable_of_round {ws : List Write} {index : Nat} {lifetimes next : Store NodeId}
    (hwf : lifetimes.WellFormed) (h : round g ws index lifetimes = (next, false)) :
    Stable g ws next := by
  obtain ⟨-, rfl, hgrown⟩ := foldl_step_unchanged h
  intro w hw
  rw [← hgrown w hw]
  exact written_isWithin_grown hwf index w

/-- A round that widens raises the total rank if it changes anything. -/
theorem totalRank_foldl_step {ds : List NodeId} {ws : List Write} {index : Nat}
    (hindex : wideningDelay ≤ index) (hds : ∀ w ∈ ws, w.declaration ∈ ds)
    (lifetimes : Store NodeId) (changed : Bool) :
    totalRank ds lifetimes ≤ totalRank ds (ws.foldl (step g index) (lifetimes, changed)).1 ∧
      ((ws.foldl (step g index) (lifetimes, changed)).2 = true →
        changed = true ∨ totalRank ds lifetimes <
          totalRank ds (ws.foldl (step g index) (lifetimes, changed)).1) := by
  induction ws generalizing lifetimes changed with
  | nil => exact ⟨le_rfl, .inl⟩
  | cons w rest ih =>
    have hrest := ih fun w' hw' => hds w' (List.mem_cons_of_mem _ hw')
    rw [List.foldl_cons, step]
    split
    · exact hrest lifetimes changed
    · rename_i hchange
      have hraise : totalRank ds lifetimes <
          totalRank ds (lifetimes.set w.declaration (grown g index lifetimes w)) := by
        refine totalRank_set (hds w List.mem_cons_self) ?_
        simp only [grown, if_pos hindex] at hchange ⊢
        exact Interval.rank_lt_of_widen hchange
      have hle := (hrest (lifetimes.set w.declaration (grown g index lifetimes w)) true).1
      exact ⟨hraise.le.trans hle, fun _ => .inr (hraise.trans_le hle)⟩

/-! ## The loop of rounds -/

/-- The loop of rounds without a limit, from the round of the given index on. It makes `rounds`
rounds and ends with the first one that changes nothing. -/
inductive Settles (g : Graph) (ws : List Write) :
    (index : Nat) → Store NodeId → (rounds : Nat) → Store NodeId → Prop
  | done {index lifetimes next} : round g ws index lifetimes = (next, false) →
      Settles g ws index lifetimes 1 next
  | again {index lifetimes next rounds final} : round g ws index lifetimes = (next, true) →
      Settles g ws (index + 1) next rounds final → Settles g ws index lifetimes (rounds + 1) final

namespace Settles

variable {ws : List Write} {index rounds rounds' : Nat} {lifetimes final final' : Store NodeId}

theorem unique (h : Settles g ws index lifetimes rounds final)
    (h' : Settles g ws index lifetimes rounds' final') : rounds = rounds' ∧ final = final' := by
  induction h generalizing rounds' with
  | done hround =>
    cases h' with
    | done hround' =>
      cases hround.symm.trans hround'
      exact ⟨rfl, rfl⟩
    | again hround' => cases hround.symm.trans hround'
  | again hround _ ih =>
    cases h' with
    | done hround' => cases hround.symm.trans hround'
    | again hround' hrest =>
      cases hround.symm.trans hround'
      obtain ⟨rfl, rfl⟩ := ih hrest
      exact ⟨rfl, rfl⟩

/-- A limit on the rounds that is not reached makes no difference. -/
theorem settle_eq (h : Settles g ws index lifetimes rounds final) {fuel : Nat}
    (hfuel : rounds ≤ fuel) : settle g ws fuel index lifetimes = final := by
  induction h generalizing fuel with
  | done hround =>
    cases fuel with
    | zero => omega
    | succ fuel => rw [settle, hround]
  | again hround _ ih =>
    cases fuel with
    | zero => omega
    | succ fuel =>
      rw [settle, hround]
      exact ih (by omega)

theorem stable (h : Settles g ws index lifetimes rounds final) (hwf : lifetimes.WellFormed) :
    Stable g ws final := by
  induction h with
  | done hround => exact stable_of_round hwf hround
  | @again index lifetimes next _ _ hround _ ih =>
    have hnext := wellFormed_round (g := g) hwf ws index
    rw [hround] at hnext
    exact ih hnext

end Settles

/-- Once rounds widen, each but the last raises a rank. -/
theorem exists_settles_of_widening {ds : List NodeId} {ws : List Write}
    (hds : ∀ w ∈ ws, w.declaration ∈ ds) {index : Nat} (hindex : wideningDelay ≤ index)
    (lifetimes : Store NodeId) :
    ∃ rounds final, Settles g ws index lifetimes rounds final ∧
      rounds + totalRank ds lifetimes ≤ 3 * ds.length + 1 := by
  -- the induction is on what is left to raise
  generalize hleft : 3 * ds.length - totalRank ds lifetimes = left
  induction left using Nat.strong_induction_on generalizing index lifetimes with
  | _ left ih =>
    have hrank := totalRank_foldl_step (g := g) hindex hds lifetimes false
    have hbefore := totalRank_le ds lifetimes
    rw [← round] at hrank
    cases hround : round g ws index lifetimes with
    | mk next changed =>
      rw [hround] at hrank
      cases changed with
      | false => exact ⟨1, next, .done hround, by omega⟩
      | true =>
        have hraised : totalRank ds lifetimes < totalRank ds next :=
          (hrank.2 rfl).resolve_left Bool.false_ne_true
        have hafter := totalRank_le ds next
        obtain ⟨rounds, final, hsettles, hrounds⟩ := ih (3 * ds.length - totalRank ds next)
          (by omega) (Nat.le_succ_of_le hindex) next rfl
        exact ⟨rounds + 1, final, .again hround hsettles, by omega⟩

/-- The rounds before widening starts may come on top. -/
theorem exists_settles {ds : List NodeId} {ws : List Write} (hds : ∀ w ∈ ws, w.declaration ∈ ds)
    {delay index : Nat} (hindex : wideningDelay ≤ index + delay) (lifetimes : Store NodeId) :
    ∃ rounds final, Settles g ws index lifetimes rounds final ∧
      rounds ≤ delay + 3 * ds.length + 1 := by
  induction delay generalizing index lifetimes with
  | zero =>
    obtain ⟨rounds, final, hsettles, hrounds⟩ :=
      exists_settles_of_widening (g := g) hds hindex lifetimes
    exact ⟨rounds, final, hsettles, by omega⟩
  | succ delay ih =>
    cases hround : round g ws index lifetimes with
    | mk next changed =>
      cases changed with
      | false => exact ⟨1, next, .done hround, by omega⟩
      | true =>
        have hnext : wideningDelay ≤ index + 1 + delay := by omega
        obtain ⟨rounds, final, hsettles, hrounds⟩ := ih hnext next
        exact ⟨rounds + 1, final, .again hround hsettles, by omega⟩

end Lifetime

/-- Three rounds join, each further one but the last raises the rank of a variable, and no rank is
raised more than three times. So the limit on the rounds is not reached. -/
theorem Graph.exists_lifetimes_settles (g : Graph) (tracked : String) :
    ∃ rounds ≤ 4 + 3 * ((Lifetime.writes g tracked).map (·.declaration)).toFinset.card,
      Lifetime.Settles g (Lifetime.writes g tracked) 0 .empty rounds (g.lifetimes tracked) := by
  generalize hws : Lifetime.writes g tracked = ws
  have hds (w : Write) (hw : w ∈ ws) : w.declaration ∈ (ws.map (·.declaration)).dedup :=
    List.mem_dedup.mpr (List.mem_map_of_mem hw)
  have hdelay : Lifetime.wideningDelay = 3 := rfl
  have hlength : (ws.map (·.declaration)).dedup.length ≤
      (ws.map (·.declaration)).eraseDups.length := by
    refine ((List.nodup_dedup _).subperm fun d hd => ?_).length_le
    exact List.mem_eraseDups.mpr (List.mem_dedup.mp hd)
  obtain ⟨rounds, final, hsettles, hrounds⟩ :=
    Lifetime.exists_settles (g := g) hds (Nat.zero_add Lifetime.wideningDelay).ge .empty
  have hfinal : g.lifetimes tracked = final := by
    rw [Graph.lifetimes, hws]
    exact hsettles.settle_eq (by rw [Lifetime.enoughRounds]; omega)
  refine ⟨rounds, ?_, hfinal ▸ hsettles⟩
  rw [List.card_toFinset]
  omega

theorem Graph.lifetimes_stable (g : Graph) (tracked : String) :
    Lifetime.Stable g (Lifetime.writes g tracked) (g.lifetimes tracked) := by
  obtain ⟨rounds, -, hsettles⟩ := g.exists_lifetimes_settles tracked
  exact hsettles.stable .empty

/-- The loop of rounds ends, whatever the writes are and however they depend on each other, after
three rounds and at most three more for each variable, and one that changes nothing. The lifetimes
are what it ends with. -/
theorem Graph.lifetimes_rounds (g : Graph) (tracked : String) :
    ∃ rounds ≤ 4 + 3 * ((Lifetime.writes g tracked).map (·.declaration)).toFinset.card,
      Lifetime.Settles g (Lifetime.writes g tracked) 0 .empty rounds (g.lifetimes tracked) ∧
      ∀ rounds' final, Lifetime.Settles g (Lifetime.writes g tracked) 0 .empty rounds' final →
        rounds' = rounds ∧ final = g.lifetimes tracked := by
  obtain ⟨rounds, hrounds, hsettles⟩ := g.exists_lifetimes_settles tracked
  exact ⟨rounds, hrounds, hsettles, fun _ _ hother => hother.unique hsettles⟩

/-! ## What lifetimes are about -/

namespace Lifetime

variable {g : Graph} {tracked : String}

theorem mem_writes {w : Write} : w ∈ writes g tracked ↔
    g.writtenDeclaration? w.node = some w.declaration ∧ w.name ≠ tracked ∧
      ∃ initializer, g.kind? w.declaration = some (.declaration w.name "int" initializer) := by
  constructor
  · intro hw
    obtain ⟨n, -, hn⟩ := List.mem_filterMap.mp hw
    split at hn
    · cases hn
    · rename_i d hwritten
      split at hn
      · rename_i name type initializer hkind
        split at hn
        · rename_i hint
          cases hn
          exact ⟨hwritten, hint.2, initializer, hint.1 ▸ hkind⟩
        · cases hn
      · cases hn
  · rintro ⟨hwritten, hname, initializer, hkind⟩
    have hsize : w.node ∈ g.nodes := by
      cases hnode : g.kind? w.node with
      | none => simp [Graph.writtenDeclaration?, Graph.assigned?, hnode] at hwritten
      | some kind =>
        obtain ⟨hlt, -⟩ := Array.getElem?_eq_some_iff.mp hnode
        exact List.mem_range.mpr hlt
    refine List.mem_filterMap.mpr ⟨w.node, hsize, ?_⟩
    simp only [hwritten, hkind, true_and, if_pos hname]

end Lifetime

/-- Lifetimes are closed under all writes at once: performing any write on the lifetime of its
variable, with the lifetimes of all others, gives nothing new, or it fails and then the variable may
hold anything. -/
theorem Graph.lifetimes_inductive {g : Graph} {tracked name : String} {w d : NodeId}
    {initializer : Option NodeId} (hwrites : g.writtenDeclaration? w = some d)
    (hkind : g.kind? d = some (.declaration name "int" initializer)) (hname : name ≠ tracked) :
    (∃ value, (Context.mk g name .empty (g.lifetimes tracked)).integerEffect
        ((g.lifetimes tracked).valueOf d) w = .ok value ∧
        value.isWithin ((g.lifetimes tracked).valueOf d) = true) ∨
      ∃ error, (Context.mk g name .empty (g.lifetimes tracked)).integerEffect
        ((g.lifetimes tracked).valueOf d) w = .error error ∧
        (g.lifetimes tracked).valueOf d = .top := by
  have hmem : (⟨d, w, name⟩ : Write) ∈ Lifetime.writes g tracked :=
    Lifetime.mem_writes.mpr ⟨hwrites, hname, initializer, hkind⟩
  have hstable := g.lifetimes_stable tracked _ hmem
  unfold Lifetime.written at hstable
  split at hstable
  · rename_i value hvalue
    exact .inl ⟨value, hvalue, hstable⟩
  · rename_i error herror
    have hwf := (g.wellFormed_lifetimes tracked).valueOf d
    exact .inr ⟨error, herror, Interval.isWithin_antisymm (Interval.isWithin_top hwf) hstable⟩

/-- `int a = 0; int b = 1; while (f()) { a = b + 1; b = a + 1; } int c = a / b;`, where `a` and `b`
feed each other without a bound, so that the quotient is undefined. -/
def Graph.feeding : Graph where
  kinds := #[.literal (some 0), .declaration "a" "int" (some 0), .literal (some 1),
    .declaration "b" "int" (some 2), .reference "a" "int" (some 1), .reference "b" "int" (some 3),
    .binary .add 5 2, .assignment .assign 4 6, .binary .add 4 2, .assignment .assign 5 8,
    .binary .div 4 5, .declaration "c" "int" (some 10), .call "f" [], .whileLoop 12]
  edges := [⟨1, 3, none⟩, ⟨3, 12, none⟩, ⟨12, 13, none⟩, ⟨13, 7, none⟩, ⟨7, 9, none⟩, ⟨9, 12, none⟩,
    ⟨13, 11, none⟩]
  faultless := by decide +kernel

/-- The write `a = b + 1` stays within the lifetime of `a`, and the declaration of `c` fails. -/
theorem Graph.feeding_lifetimes :
    (feeding.lifetimes "x").valueOf 1 = .atLeast 0 ∧
      (∃ value, (Context.mk feeding "a" .empty (feeding.lifetimes "x")).integerEffect
        ((feeding.lifetimes "x").valueOf 1) 7 = .ok value ∧
        value.isWithin ((feeding.lifetimes "x").valueOf 1) = true) ∧
      ∃ error, (Context.mk feeding "c" .empty (feeding.lifetimes "x")).integerEffect
        ((feeding.lifetimes "x").valueOf 11) 11 = .error error ∧
        (feeding.lifetimes "x").valueOf 11 = .top := by
  have hlifetime : (feeding.lifetimes "x").valueOf 1 = .atLeast 0 := by decide +kernel
  have hassigns : feeding.writtenDeclaration? 7 = some 1 := by decide +kernel
  have ha : feeding.kind? 1 = some (.declaration "a" "int" (some 0)) := by decide +kernel
  have hdeclares : feeding.writtenDeclaration? 11 = some 11 := by decide +kernel
  have hc : feeding.kind? 11 = some (.declaration "c" "int" (some 10)) := by decide +kernel
  have hfails : ((Context.mk feeding "c" .empty (feeding.lifetimes "x")).integerEffect
      ((feeding.lifetimes "x").valueOf 11) 11).isOk = false := by decide +kernel
  refine ⟨hlifetime, ?_, ?_⟩
  · refine (lifetimes_inductive hassigns ha (by decide)).resolve_right ?_
    rintro ⟨error, -, htop⟩
    rw [hlifetime] at htop
    cases htop
  · refine (lifetimes_inductive hdeclares hc (by decide)).resolve_left ?_
    rintro ⟨value, hvalue, -⟩
    rw [hvalue] at hfails
    cases hfails

namespace Lifetime

variable {g : Graph} {tracked : String}

theorem exists_write_of_foldl {ws : List Write} {index : Nat} {lifetimes next : Store NodeId}
    {changed changed' : Bool} {d : NodeId}
    (h : ws.foldl (step g index) (lifetimes, changed) = (next, changed'))
    (hd : next.get? d ≠ none) :
    lifetimes.get? d ≠ none ∨ ∃ w ∈ ws, w.declaration = d := by
  induction ws generalizing lifetimes changed with
  | nil =>
    cases h
    exact .inl hd
  | cons w rest ih =>
    rw [List.foldl_cons, step] at h
    split at h
    · rcases ih h with hbefore | ⟨w', hw', rfl⟩
      · exact .inl hbefore
      · exact .inr ⟨w', List.mem_cons_of_mem _ hw', rfl⟩
    · rcases ih h with hset | ⟨w', hw', rfl⟩
      · rw [Table.get?_set] at hset
        split at hset
        · rename_i heq
          exact .inr ⟨w, List.mem_cons_self, heq.symm⟩
        · exact .inl hset
      · exact .inr ⟨w', List.mem_cons_of_mem _ hw', rfl⟩

/-- Only variables that are written have a lifetime. -/
theorem exists_write_of_settle {ws : List Write} {fuel index : Nat} {lifetimes : Store NodeId}
    {d : NodeId} {value : Interval}
    (h : (settle g ws fuel index lifetimes).get? d = some value) :
    lifetimes.get? d ≠ none ∨ ∃ w ∈ ws, w.declaration = d := by
  induction fuel generalizing index lifetimes with
  | zero =>
    left
    rw [settle] at h
    simp [h]
  | succ fuel ih =>
    rw [settle] at h
    split at h
    · rename_i next hround
      rcases ih h with hd | hw
      · exact exists_write_of_foldl hround hd
      · exact .inr hw
    · rename_i next hround
      exact exists_write_of_foldl hround (by simp [h])

/-- Every variable that is written holds a member of its lifetime. -/
def Covered (g : Graph) (tracked : String) (m : Memory) : Prop :=
  ∀ w ∈ writes g tracked, ∀ v, m w.declaration = some v →
    v ∈ (g.lifetimes tracked).valueOf w.declaration

theorem Covered.mem {m : Memory} (h : Covered g tracked m) {d : NodeId} {v : Int64}
    {lifetime : Interval} (hm : m d = some v)
    (hd : (g.lifetimes tracked).get? d = some lifetime) : v ∈ lifetime := by
  rcases exists_write_of_settle hd with hempty | ⟨w, hw, rfl⟩
  · exact absurd rfl hempty
  · have hv := h w hw v hm
    rwa [Store.valueOf, hd] at hv

/-- Writes keep variables within their lifetimes. -/
theorem Covered.perform {m m' : Memory} {n : NodeId} (hg : g.WellNamed) (h : Covered g tracked m)
    (hperform : Performs g m n m') : Covered g tracked m' := by
  intro w hw v hv
  obtain ⟨-, hname, initializer, hkind⟩ := mem_writes.mp hw
  by_cases hwritten : g.writtenDeclaration? n = some w.declaration
  · -- the node is itself one of the writes, and lifetimes are stable under them
    have hmem : (⟨w.declaration, n, w.name⟩ : Write) ∈ writes g tracked :=
      mem_writes.mpr ⟨hwritten, hname, initializer, hkind⟩
    have hstable := g.lifetimes_stable tracked _ hmem
    have hagrees : Agrees ⟨g, w.name, .empty, g.lifetimes tracked⟩ w.declaration
        ((g.lifetimes tracked).valueOf w.declaration) m :=
      ⟨⟨"int", initializer, hkind⟩, h w hw, fun d v lifetime => h.mem⟩
    refine Interval.mem_of_isWithin hstable ?_
    unfold written
    split
    · rename_i value heffect
      exact hagrees.mem_integerEffect_write hg hwritten hperform heffect hv
    · exact Interval.mem_top v
  · rw [hperform.frame hwritten] at hv
    exact h w hw v hv

end Lifetime

/-- Lifetimes cover whatever the writes of a graph may leave in memory. -/
theorem Arises.covered {g : Graph} (hg : g.WellNamed) {m : Memory} (h : Arises g m)
    (tracked : String) : Lifetime.Covered g tracked m := by
  induction h with
  | empty =>
    intro w _ v hv
    cases hv
  | perform _ hperform ih => exact ih.perform hg hperform
  | forget d _ ih =>
    intro w hw v hv
    by_cases hd : w.declaration = d
    · rw [hd, Function.update_self] at hv
      cases hv
    · rw [Function.update_of_ne hd] at hv
      exact ih w hw v hv

end IntervalFlow
