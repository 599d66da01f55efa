import IntervalFlow.Proofs.Effect.Statement
import IntervalFlow.Proofs.Effect.TripCount
import IntervalFlow.Proofs.Graph.Ring
import IntervalFlow.Proofs.Graph.Validity

/-!
# Counted loops — soundness of their summary

A run through a counted loop whose region is a ring makes the same turn again and again: each one
adds the step to the counter and the growth to the tracked variable. The condition stops it after as
many turns as `tripCount?` says. So at the head the variable is its value on entry plus a multiple
of the growth, and the summary covers these multiples (`summary_sound`). What the loop counts by,
what its nodes add and where it is entered are said by the kinds of its nodes and by its edges.
-/

namespace IntervalFlow

/-! ## Entries -/

/-- The edges that lead into the region of `head` from outside. -/
def Graph.entering (g : Graph) (head : NodeId) : List Edge :=
  g.edges.filter fun e => e.target ∈ g.cycleOf head && e.source ∉ g.cycleOf head

/-- The join of the values stored at the nodes from which the region of `head` is entered. -/
def Context.enteringValue (ctx : Context) (head : NodeId) : Interval :=
  (ctx.graph.entering head).foldl (fun value e => value.join (ctx.general.valueOf e.source)) .bottom

/-- Going from each node of a list back along its edges finds the same edges as going through all
edges of the graph. -/
theorem Graph.flatMap_prev_perm (g : Graph) (p : NodeId → Bool) {ns : List NodeId}
    (h : ns.Nodup) : (ns.flatMap fun n => (g.prev n).filter p).Perm
      ((g.edges.filter fun e => e.target ∈ ns && p e.source).map Edge.source) := by
  induction ns with
  | nil => simp
  | cons n rest ih =>
    obtain ⟨hn, hrest⟩ := List.nodup_cons.mp h
    have hprev : (g.prev n).filter p =
        (g.edges.filter fun e => e.target = n && p e.source).map Edge.source := by
      rw [Draft.prev_eq, Draft.ingoing, List.filter_map, List.filter_filter]
      congr 2
      funext e
      exact Bool.and_comm _ _
    have hsplit := List.filter_append_perm (fun e : Edge => decide (e.target = n))
      (g.edges.filter fun e => e.target ∈ n :: rest && p e.source)
    rw [List.filter_filter, List.filter_filter] at hsplit
    rw [List.flatMap_cons, hprev]
    refine ((ih hrest).append_left _).trans ?_
    rw [← List.map_append]
    refine List.Perm.map _ (List.Perm.trans (.of_eq ?_) hsplit)
    congr 1
    · refine List.filter_congr fun e _ => ?_
      by_cases heq : e.target = n <;> simp [heq]
    · refine List.filter_congr fun e _ => ?_
      by_cases heq : e.target = n
      · simp [heq, hn]
      · simp [heq]

namespace CountedLoop

variable {g : Graph} {name counter : String} {head iteration n : NodeId}

/-! ## Growth -/

/-- What is known of a node that is part of a growth. -/
theorem accumulate_eq_some {sum total : Int64}
    (h : accumulate g name counter head iteration sum n = some total) :
    (n ≠ head → (g.next n).length = 1) ∧ (g.Writes counter n → n = iteration) ∧
      total.toInt = sum.toInt + g.added name n := by
  unfold accumulate at h
  split at h
  · cases h
  · rename_i hsingle
    refine ⟨fun hne => ?_, ?_⟩
    · by_contra hlength
      exact hsingle ⟨hne, hlength⟩
    · split at h
      · rename_i hnone
        cases h
        have hquiet (other : String) : ¬ g.Writes other n := by
          rw [← Graph.writes_iff]
          simp [Graph.writes, hnone]
        rw [Graph.added_of_not_writes (hquiet name), Int.add_zero]
        exact ⟨fun hwrites => absurd hwrites (hquiet counter), rfl⟩
      · rename_i written hwritten
        split at h
        · cases h
        · rename_i hcounter
          refine ⟨fun hwrites => ?_, ?_⟩
          · rw [← Graph.writes_iff, Graph.writes, decide_eq_true_eq, hwritten,
              Option.some.injEq] at hwrites
            by_contra hne
            exact hcounter ⟨hwrites, hne⟩
          · split at h
            · obtain ⟨s, hs, hsum⟩ := Option.bind_eq_some_iff.mp h
              rw [(Graph.constantStep?_eq_some_iff.mp hs).2.added_eq]
              exact Word.ofInt?_eq_some_iff.mp hsum
            · rename_i hother
              cases h
              have hquiet : ¬ g.Writes name n := by
                rw [← Graph.writes_iff]
                simp [Graph.writes, hwritten, hother]
              rw [Graph.added_of_not_writes hquiet, Int.add_zero]

theorem foldlM_accumulate {region : List NodeId} {sum total : Int64}
    (h : region.foldlM (accumulate g name counter head iteration) sum = some total) :
    (∀ n ∈ region, (n ≠ head → (g.next n).length = 1) ∧ (g.Writes counter n → n = iteration)) ∧
      total.toInt = sum.toInt + (region.map (g.added name)).sum := by
  induction region generalizing sum with
  | nil =>
    cases h
    simp
  | cons n rest ih =>
    rw [List.foldlM_cons] at h
    obtain ⟨next, hnext, hrest⟩ := Option.bind_eq_some_iff.mp h
    obtain ⟨hsingle, hiteration, hadded⟩ := accumulate_eq_some hnext
    obtain ⟨hnodes, htotal⟩ := ih hrest
    refine ⟨?_, ?_⟩
    · intro m hm
      rcases List.mem_cons.mp hm with rfl | hm
      · exact ⟨hsingle, hiteration⟩
      · exact hnodes m hm
    · rw [htotal, hadded, List.map_cons, List.sum_cons]
      omega

/-! ## Headers -/

/-- A `for` head of the form `for (counter = start; counter op bound; iteration)`, where the two
sides of the comparison may be exchanged. -/
structure Header (g : Graph) (head : NodeId) where
  initializer : NodeId
  condition : NodeId
  iteration : NodeId
  kind : g.kind? head = some (.forLoop (some initializer) (some condition) (some iteration))
  counter : String
  start : Int64
  starts : g.Initializes initializer counter start
  test : Comparison
  tests : g.Compares counter condition test

theorem Header.unique (a b : Header g head) : a = b := by
  obtain ⟨i, c, t, hkind, counter, start, hstarts, test, htests⟩ := a
  obtain ⟨i', c', t', hkind', counter', start', hstarts', test', htests'⟩ := b
  cases hkind.symm.trans hkind'
  have hstart := Graph.literalStart?_eq_some_iff.mpr hstarts
  cases hstart.symm.trans (Graph.literalStart?_eq_some_iff.mpr hstarts')
  cases htests.unique htests'
  rfl

/-- A counted loop has a header, and this is what its trips and its growth are computed from. -/
theorem exists_header {l : CountedLoop} (h : find? g name head = some l) :
    ∃ (header : Header g head) (step : Int64),
      g.Adds header.counter header.iteration step ∧
      (∃ op, header.test.normal? = some op ∧
        tripCount? op header.start header.test.literal step = some l.trips) ∧
      2 ≤ (g.cycleOf head).length ∧
      growth? g name header.counter head header.iteration (g.cycleOf head) = some l.growth ∧
      l.entrances = (g.cycleOf head).flatMap fun n => (g.prev n).filter (· ∉ g.cycleOf head) := by
  unfold find? at h
  split at h
  · rename_i initializer condition iteration hkind
    obtain ⟨⟨counter, start⟩, hstart, h⟩ := Option.bind_eq_some_iff.mp h
    obtain ⟨-, -, h⟩ := Option.bind_eq_some_iff.mp h
    obtain ⟨step, hstep, h⟩ := Option.bind_eq_some_iff.mp h
    obtain ⟨-, -, h⟩ := Option.bind_eq_some_iff.mp h
    obtain ⟨⟨op, bound⟩, hcompares, h⟩ := Option.bind_eq_some_iff.mp h
    obtain ⟨trips, htrips, h⟩ := Option.bind_eq_some_iff.mp h
    obtain ⟨_, hguard, h⟩ := Option.bind_eq_some_iff.mp h
    obtain ⟨growth, hgrowth, h⟩ := Option.bind_eq_some_iff.mp h
    cases h
    have hlength : 2 ≤ (g.cycleOf head).length := by
      by_contra hshort
      rw [guard, if_neg hshort] at hguard
      cases hguard
    obtain ⟨test, htests, hnormal, rfl⟩ := Graph.comparisonWith?_eq_some_iff.mp hcompares
    exact ⟨⟨initializer, condition, iteration, hkind, counter, start,
      Graph.literalStart?_eq_some_iff.mp hstart, test, htests⟩, step,
      (Graph.constantStep?_eq_some_iff.mp hstep).2, ⟨op, hnormal, htrips⟩, hlength, hgrowth, rfl⟩
  · cases h

theorem cyclic_of_find? {l : CountedLoop} (h : find? g name head = some l) : g.Cyclic head := by
  obtain ⟨-, -, -, -, hlength, -⟩ := exists_header h
  rw [← Graph.onCycle_iff, Graph.onCycle, Bool.or_eq_true, decide_eq_true_eq]
  exact .inr hlength

/-- A loop is entered from the nodes outside its region with a successor in it. -/
theorem mem_entrances {l : CountedLoop} (h : find? g name head = some l) {source : NodeId} :
    source ∈ l.entrances ↔
      source ∉ g.cycleOf head ∧ ∃ n ∈ g.cycleOf head, n ∈ g.next source := by
  obtain ⟨-, -, -, -, -, -, hentrances⟩ := exists_header h
  simp only [hentrances, List.mem_flatMap, List.mem_filter, decide_eq_true_eq, Draft.mem_prev]
  constructor
  · rintro ⟨n, hn, hedge, houtside⟩
    exact ⟨houtside, n, hn, hedge⟩
  · rintro ⟨houtside, n, hn, hedge⟩
    exact ⟨n, hn, hedge, houtside⟩

/-- The values with which a loop is entered are those stored before its entering edges. -/
theorem entry_eq {ctx : Context} {l : CountedLoop}
    (h : find? ctx.graph ctx.name head = some l) :
    l.entry ctx.general = ctx.enteringValue head := by
  obtain ⟨-, -, -, -, -, -, hentrances⟩ := exists_header h
  have hperm := ctx.graph.flatMap_prev_perm (· ∉ ctx.graph.cycleOf head)
    (Graph.nodup_cycleOf ctx.graph head)
  rw [← hentrances] at hperm
  rw [entry, Context.enteringValue, Graph.entering, hperm.foldl_eq', List.foldl_map]
  intro a _ b _ value
  rw [Interval.join_assoc, Interval.join_assoc, Interval.join_comm (ctx.general.valueOf a)]

/-! ## Runs -/

/-- A node that is about to be performed, with the exact values of the counter and of the tracked
variable before it. -/
structure Moment where
  node : NodeId
  counter : Int
  value : Int

namespace Header

/-- How a structured program lays out a loop: the iteration belongs to it, the first successor of
the head is the only one in it, and from wherever it is entered the head is reached without a write
of the tracked variable or of the counter. -/
structure Structured (header : Header g head) (name : String) : Prop where
  iterates : header.iteration ∈ g.cycleOf head
  body : ∃ body ∈ g.cycleOf head, (g.next head)[0]? = some body ∧
    ∀ n ∈ g.next head, n ∈ g.cycleOf head → n = body
  approach : ∀ e ∈ g.entering head, ∃ passed, g.Chain head e.target passed ∧
    ∀ m ∈ passed, ¬ g.Writes name m ∧ ¬ g.Writes header.counter m

/-- One step of a run. At the head, the condition decides whether the run goes on with the first
successor or with another one. Every other node adds its constants and has one successor. -/
inductive Move (header : Header g head) (name : String) : Moment → Moment → Prop
  | again {body c v} : header.test.outcome c = true → (g.next head)[0]? = some body →
      Move header name ⟨head, c, v⟩ ⟨body, c, v⟩
  | leave {n c v} : header.test.outcome c = false → n ∈ g.next head →
      (g.next head)[0]? ≠ some n → Move header name ⟨head, c, v⟩ ⟨n, c, v⟩
  | pass {n m c v c' v'} {dc dv : Int64} : n ≠ head → g.next n = [m] →
      g.Adds header.counter n dc → g.Adds name n dv →
      c' = c + dc.toInt → v' = v + dv.toInt → Move header name ⟨n, c, v⟩ ⟨m, c', v'⟩

variable {header : Header g head} {m m' : Moment}

theorem Move.edge (h : header.Move name m m') : m'.node ∈ g.next m.node := by
  cases h with
  | again _ hbody => exact List.mem_of_getElem? hbody
  | leave _ hn _ => exact hn
  | pass _ hnext =>
    rw [hnext]
    exact List.mem_singleton_self _

/-- At its next arrival at the head, the run will have the values `c` and `v`. -/
def Due (header : Header g head) (name : String) (m : Moment) (c v : Int) : Prop :=
  ∃ passed, g.Chain head m.node passed ∧
    m.counter + (passed.map (g.added header.counter)).sum = c ∧
    m.value + (passed.map (g.added name)).sum = v

theorem Due.eq_of_head {c v : Int} (h : header.Due name m c v) (hhead : m.node = head) :
    m.counter = c ∧ m.value = v := by
  obtain ⟨passed, hchain, hcounter, hvalue⟩ := h
  rw [hhead] at hchain
  obtain rfl := hchain.eq_nil
  simpa using And.intro hcounter hvalue

/-- Between two visits of the head, what is due stays due. -/
theorem Due.pass {c v : Int} (h : header.Due name m c v) (hne : m.node ≠ head)
    (hmove : header.Move name m m') : header.Due name m' c v := by
  obtain ⟨passed, hchain, hcounter, hvalue⟩ := h
  cases hmove with
  | again => exact absurd rfl hne
  | leave => exact absurd rfl hne
  | pass _ hnext hdc hdv hc hv =>
    obtain ⟨k, rest, rfl, hnext', hrest⟩ := hchain.exists_tail hne
    rw [hnext] at hnext'
    cases hnext'
    refine ⟨rest, hrest, ?_, ?_⟩
    · rw [← hcounter, hc, List.map_cons, List.sum_cons, hdc.added_eq, Int.add_assoc]
    · rw [← hvalue, hv, List.map_cons, List.sum_cons, hdv.added_eq, Int.add_assoc]

/-- An entry of the loop is due at the head as it is. -/
theorem Structured.due (h : header.Structured name) {e : Edge} (he : e ∈ g.entering head)
    (c v : Int) : header.Due name ⟨e.target, c, v⟩ c v := by
  obtain ⟨passed, hchain, hquiet⟩ := h.approach e he
  have hsum (written : String) (hnone : ∀ m ∈ passed, ¬ g.Writes written m) :
      (passed.map (g.added written)).sum = 0 := by
    refine List.sum_eq_zero fun d hd => ?_
    obtain ⟨m, hm, rfl⟩ := List.mem_map.mp hd
    exact Graph.added_of_not_writes (hnone m hm)
  refine ⟨passed, hchain, ?_, ?_⟩
  · rw [hsum _ fun m hm => (hquiet m hm).2, Int.add_zero]
  · rw [hsum _ fun m hm => (hquiet m hm).1, Int.add_zero]

/-! ## Turns -/

/-- The loop runs in turns from `body` back to the head. Each one adds the step to the counter and
the growth to the tracked variable, and after all trips the condition fails. -/
structure Turns (header : Header g head) (name : String) (l : CountedLoop) (step : Int64)
    (body : NodeId) : Prop where
  ring : g.Ring head body
  first : (g.next head)[0]? = some body
  counter : ((g.cycleOf head).map (g.added header.counter)).sum = step.toInt
  value : ((g.cycleOf head).map (g.added name)).sum = l.growth.toInt
  nonneg : 0 ≤ l.trips.toInt
  ends : header.test.outcome (header.start.toInt + l.trips.toInt * step.toInt) = false

theorem added_head (header : Header g head) (written : String) : g.added written head = 0 := by
  refine Graph.added_of_not_writes ?_
  rw [← Graph.writes_iff]
  simp [Graph.writes, Graph.writtenVariable?, Graph.assigned?, header.kind]

theorem Structured.turns (h : header.Structured name) {l : CountedLoop}
    (hfind : find? g name head = some l) : ∃ step body, header.Turns name l step body := by
  obtain ⟨header', step, hstep, ⟨op, hnormal, htrips⟩, -, hgrowth, -⟩ := exists_header hfind
  obtain rfl := header.unique header'
  obtain ⟨body, hinside, hfirst, honly⟩ := h.body
  obtain ⟨hnodes, hvalue⟩ := foldlM_accumulate hgrowth
  obtain ⟨hnonneg, -, hends⟩ := trips_of_tripCount? htrips
  rw [← Comparison.outcome_eq hnormal] at hends
  refine ⟨step, body, ⟨⟨?_, List.mem_of_getElem? hfirst, hinside, honly⟩, hfirst, ?_, ?_, hnonneg,
    hends⟩⟩
  · intro n hn
    exact (hnodes n hn).1
  · -- the iteration is the only write of the counter, and it occurs once in the region
    have hothers (n : NodeId) (hne : n ≠ header.iteration) (hn : n ∈ g.cycleOf head) :
        g.added header.counter n = 0 := by
      refine Graph.added_of_not_writes fun hwrites => ?_
      exact hne ((hnodes n hn).2 hwrites)
    rw [List.sum_map_eq_nsmul_single header.iteration _ hothers,
      List.count_eq_one_of_mem (Graph.nodup_cycleOf g head) h.iterates, one_nsmul,
      hstep.added_eq]
  · rw [hvalue]
    exact (Int.zero_add _).symm

variable {l : CountedLoop} {step : Int64} {body : NodeId}

/-- At its next arrival at the head, the run will have made some of its turns, and not more than the
loop has trips. -/
def Turning (header : Header g head) (name : String) (l : CountedLoop) (step entry : Int64)
    (m : Moment) : Prop :=
  ∃ turns : Nat, turns ≤ l.trips.toInt ∧
    header.Due name m (header.start.toInt + turns * step.toInt)
      (entry.toInt + turns * l.growth.toInt)

/-- A turn starts at the head only while the condition holds, so before all trips are made. -/
theorem Turns.again (h : header.Turns name l step body) {entry : Int64} {c v : Int}
    (hm : header.Turning name l step entry ⟨head, c, v⟩)
    (hholds : header.test.outcome c = true) :
    header.Turning name l step entry ⟨body, c, v⟩ := by
  obtain ⟨turns, hle, hdue⟩ := hm
  obtain ⟨hcounter, hvalue⟩ : c = _ ∧ v = _ := hdue.eq_of_head rfl
  obtain ⟨passed, hchain⟩ := h.ring.exists_chain h.ring.inside
  have hmore : (turns : Int) ≠ l.trips.toInt := by
    intro heq
    have hends := h.ends
    rw [← heq, ← hcounter, hholds] at hends
    cases hends
  have hcounterSum := h.ring.sum_eq hchain (g.added header.counter)
  have hvalueSum := h.ring.sum_eq hchain (g.added name)
  rw [h.counter, header.added_head] at hcounterSum
  rw [h.value, header.added_head] at hvalueSum
  refine ⟨turns + 1, by omega, passed, hchain, ?_, ?_⟩
  · push_cast
    rw [Int.add_mul, Int.one_mul]
    omega
  · push_cast
    rw [Int.add_mul, Int.one_mul]
    omega

/-- The run has left the region. -/
def Left (g : Graph) (head : NodeId) (m : Moment) : Prop :=
  g.Path head m.node ∧ m.node ∉ g.cycleOf head

theorem Turns.move (h : header.Turns name l step body) {entry : Int64}
    (hm : header.Turning name l step entry m ∨ Left g head m) (hmove : header.Move name m m') :
    header.Turning name l step entry m' ∨ Left g head m' := by
  rcases hm with hm | ⟨hpath, houtside⟩
  · by_cases hhead : m.node = head
    · cases hmove with
      | again hholds hbody =>
        rw [h.first] at hbody
        cases hbody
        exact .inl (h.again hm hholds)
      | leave _ hn hother =>
        refine .inr ⟨.single hn, fun hinside => hother ?_⟩
        rw [h.ring.only _ hn hinside, h.first]
      | pass hne => exact absurd hhead hne
    · obtain ⟨turns, hle, hdue⟩ := hm
      exact .inl ⟨turns, hle, hdue.pass hhead hmove⟩
  · -- whoever left the region does not come back
    refine .inr ⟨hpath.tail hmove.edge, fun hinside => houtside ?_⟩
    exact Graph.mem_cycleOf_of_next hpath hmove.edge hinside

/-- Every moment of a run that enters the loop lies in one of its turns or after it. -/
theorem Turns.run (h : header.Turns name l step body) (hstructured : header.Structured name)
    {e : Edge} (he : e ∈ g.entering head) {entry : Int64}
    (hrun : Relation.ReflTransGen (header.Move name)
      ⟨e.target, header.start.toInt, entry.toInt⟩ m) :
    header.Turning name l step entry m ∨ Left g head m := by
  induction hrun with
  | refl =>
    refine .inl ⟨0, h.nonneg, ?_⟩
    simpa using hstructured.due he header.start.toInt entry.toInt
  | tail _ hmove ih => exact h.move ih hmove

end Header

/-! ## Summaries -/

/-- Some turns add something between nothing and the growth of all trips. -/
theorem exists_gain {turns : Nat} {trips growth total : Int64} (hturns : turns ≤ trips.toInt)
    (htotal : total.toInt = trips.toInt * growth.toInt) :
    ∃ gain : Int64, gain.toInt = turns * growth.toInt ∧ gain ∈ Interval.range 0 total := by
  have hzero : (0 : Int64).toInt = 0 := rfl
  have hlow := total.minValue_le_toInt
  have hhigh := total.toInt_le
  have hmin : Int64.minValue.toInt ≤ 0 := by decide
  have hmax : 0 ≤ Int64.maxValue.toInt := by decide
  have hturns0 : (0 : Int) ≤ turns := Int.natCast_nonneg turns
  rcases Int.le_total 0 growth.toInt with hup | hdown
  · have hlower := Int.mul_nonneg hturns0 hup
    have hupper := Int.mul_le_mul_of_nonneg_right hturns hup
    have hgain := Word.toInt_ofInt (n := turns * growth.toInt) (by omega) (by omega)
    exact ⟨_, hgain, Interval.mem_range (.inl ⟨by omega, by omega⟩)⟩
  · have hlower := Int.mul_le_mul_of_nonpos_right hturns hdown
    have hupper := Int.mul_nonpos_of_nonneg_of_nonpos hturns0 hdown
    have hgain := Word.toInt_ofInt (n := turns * growth.toInt) (by omega) (by omega)
    exact ⟨_, hgain, Interval.mem_range (.inr ⟨by omega, by omega⟩)⟩

/-- The summary covers the values on entry after any number of turns up to the trips. -/
theorem mem_of_turns {l : CountedLoop} {general : Store NodeId} {summary : Interval}
    (h : l.summary? general = .ok (some summary)) {entry value : Int64}
    (hentry : entry ∈ l.entry general) {turns : Nat} (hturns : turns ≤ l.trips.toInt)
    (hvalue : value.toInt = entry.toInt + turns * l.growth.toInt) : value ∈ summary := by
  unfold summary? at h
  split at h
  · cases h
  · split at h
    · cases h
    · rename_i total htotal
      obtain ⟨sum, hsum⟩ := (l.entry general).add_range 0 total
      rw [hsum] at h
      cases h
      obtain ⟨gain, hgain, hrange⟩ := exists_gain hturns (Word.ofInt?_eq_some_iff.mp htotal)
      exact Interval.mem_add hentry hrange hsum (by rw [hvalue, hgain])

/-- A counted loop has a header. Each time a run that enters the loop arrives at the head, if the
loop is structured, it has made no more turns than the loop has trips, and the summary covers the
value of the tracked variable. -/
theorem summary_sound {ctx : Context} {head : NodeId} {l : CountedLoop} {summary : Interval}
    (hfind : find? ctx.graph ctx.name head = some l)
    (hsummary : l.summary? ctx.general = .ok (some summary)) :
    Nonempty (Header ctx.graph head) ∧
      ∀ header : Header ctx.graph head, header.Structured ctx.name →
        ∀ e ∈ ctx.graph.entering head, ∀ entry ∈ ctx.enteringValue head, ∀ c v : Int,
          Relation.ReflTransGen (header.Move ctx.name)
            ⟨e.target, header.start.toInt, entry.toInt⟩ ⟨head, c, v⟩ →
          (∃ turns : Nat, turns ≤ l.trips.toInt ∧ v = entry.toInt + turns * l.growth.toInt) ∧
            ∀ value : Int64, value.toInt = v → value ∈ summary := by
  obtain ⟨header, -⟩ := exists_header hfind
  refine ⟨⟨header⟩, ?_⟩
  intro header hstructured e he entry hentry c v hrun
  rw [← entry_eq hfind] at hentry
  obtain ⟨step, body, hturns⟩ := hstructured.turns hfind
  rcases hturns.run hstructured he hrun with ⟨turns, hle, hdue⟩ | ⟨-, houtside⟩
  · obtain ⟨-, hv⟩ := hdue.eq_of_head rfl
    refine ⟨⟨turns, hle, hv⟩, ?_⟩
    intro value hvalue
    exact mem_of_turns hsummary hentry hle (hvalue.trans hv)
  · exact absurd (Graph.mem_cycleOf_self (Graph.lt_size_of_mem_next hturns.ring.first).1) houtside

/-- `int x = 5; for (int c = 1; 6 > c; c += 3) { x -= 3; x++; } x`, where the loop is entered
through its condition. -/
def countingDown : Graph where
  kinds := #[.literal (some 5), .declaration "x" "int" (some 0), .literal (some 1),
    .declaration "c" "int" (some 2), .literal (some 6), .reference "c" "int" (some 3),
    .binary .gt 4 5, .assignment .add 5 10, .forLoop (some 3) (some 6) (some 7),
    .reference "x" "int" (some 1), .literal (some 3), .assignment .sub 9 10, .unary .increment 9,
    .reference "x" "int" (some 1)]
  edges := [⟨1, 3, none⟩, ⟨3, 6, none⟩, ⟨6, 8, none⟩, ⟨8, 11, none⟩, ⟨11, 12, none⟩, ⟨12, 7, none⟩,
    ⟨7, 6, none⟩, ⟨8, 13, none⟩]
  faultless := by decide +kernel

def countingDownContext : Context := ⟨countingDown, "x", Table.set .empty 3 (.constant 5), .empty⟩

def countingDownHeader : Header countingDown 8 where
  initializer := 3
  condition := 6
  iteration := 7
  kind := rfl
  counter := "c"
  start := 1
  starts := .declares rfl rfl
  test := ⟨.gt, 6, true⟩
  tests := .literalFirst rfl rfl rfl

/-- The region of the loop is entered at the condition, which leads to the head. -/
theorem countingDown_structured : countingDownHeader.Structured "x" := by
  refine ⟨by decide +kernel, ⟨11, by decide +kernel⟩, fun e he => ?_⟩
  have hentered : ∀ e ∈ countingDown.entering 8, e.target = 6 := by decide +kernel
  have hquiet : ∀ m ∈ [6], countingDown.writes "x" m = false ∧
      countingDown.writes "c" m = false := by
    decide +kernel
  rw [hentered e he]
  refine ⟨[6], .pass (by decide) (by decide +kernel) .arrived, fun m hm => ?_⟩
  exact (hquiet m hm).imp Graph.writes_eq_false_iff.mp Graph.writes_eq_false_iff.mp

/-- After both trips, `x` has gone from `5` to the lower end of the summary `[1, 5]`, and `c` from
`1` to `7`. -/
theorem countingDown_summary :
    find? countingDown "x" 8 = some ⟨2, -2, [3]⟩ ∧
      summary? ⟨2, -2, [3]⟩ countingDownContext.general = .ok (some (.range 1 5)) ∧
      Relation.ReflTransGen (countingDownHeader.Move "x") ⟨6, 1, 5⟩ ⟨8, 7, 1⟩ ∧
      (∃ turns : Nat, turns ≤ (2 : Int64).toInt ∧ 1 = 5 + turns * (-2 : Int64).toInt) ∧
      (1 : Int64) ∈ Interval.range 1 5 := by
  have hfind : find? countingDown "x" 8 = some ⟨2, -2, [3]⟩ := by decide +kernel
  have hsummary : summary? ⟨2, -2, [3]⟩ countingDownContext.general = .ok (some (.range 1 5)) := by
    decide +kernel
  have hagain (c v : Int) (h : c < 6) : countingDownHeader.Move "x" ⟨8, c, v⟩ ⟨11, c, v⟩ :=
    .again (decide_eq_true h) (by decide +kernel)
  have hpass (n m : NodeId) (dc dv : Int64) (c v c' v' : Int)
      (h : n ≠ 8 ∧ countingDown.next n = [m] ∧ countingDown.added? "c" n = some dc ∧
        countingDown.added? "x" n = some dv ∧ c' = c + dc.toInt ∧ v' = v + dv.toInt) :
      countingDownHeader.Move "x" ⟨n, c, v⟩ ⟨m, c', v'⟩ := by
    obtain ⟨hne, hnext, hdc, hdv, hc, hv⟩ := h
    exact .pass hne hnext (Graph.added?_eq_some_iff.mp hdc) (Graph.added?_eq_some_iff.mp hdv) hc hv
  have hrun : Relation.ReflTransGen (countingDownHeader.Move "x") ⟨6, 1, 5⟩ ⟨8, 7, 1⟩ := by
    refine .head (hpass 6 8 0 0 1 5 1 5 (by decide +kernel)) ?_
    refine .head (hagain 1 5 (by decide)) ?_
    refine .head (hpass 11 12 0 (-3) 1 5 1 2 (by decide +kernel)) ?_
    refine .head (hpass 12 7 0 1 1 2 1 3 (by decide +kernel)) ?_
    refine .head (hpass 7 6 3 0 1 3 4 3 (by decide +kernel)) ?_
    refine .head (hpass 6 8 0 0 4 3 4 3 (by decide +kernel)) ?_
    refine .head (hagain 4 3 (by decide)) ?_
    refine .head (hpass 11 12 0 (-3) 4 3 4 0 (by decide +kernel)) ?_
    refine .head (hpass 12 7 0 1 4 0 4 1 (by decide +kernel)) ?_
    refine .head (hpass 7 6 3 0 4 1 7 1 (by decide +kernel)) ?_
    exact .single (hpass 6 8 0 0 7 1 7 1 (by decide +kernel))
  have hentered : (⟨3, 6, none⟩ : Edge) ∈ countingDown.entering 8 := by decide +kernel
  have hentry : (5 : Int64) ∈ countingDownContext.enteringValue 8 := by decide +kernel
  have hsound := (summary_sound hfind hsummary).2 countingDownHeader countingDown_structured _
    hentered 5 hentry 7 1
  obtain ⟨hturns, hcovered⟩ := hsound hrun
  exact ⟨hfind, hsummary, hrun, hturns, hcovered 1 rfl⟩

end CountedLoop

end IntervalFlow
