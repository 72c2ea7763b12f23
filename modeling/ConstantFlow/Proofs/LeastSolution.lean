import ConstantFlow.Proofs.Iteration
import ConstantFlow.Proofs.Monotonicity

namespace ConstantFlow

namespace Problem

variable {p : Problem} {s s' : State p.method.size} {u v : Node p.method.size} {c : Config}
  {sol : Solution p.method.size} {T : Node p.method.size → Fact → Fact}
  {B A : Node p.method.size → Fact}

/-- The equations of the flow, where `T v` is what happens at the node `v`. -/
structure SolvesBy (p : Problem) (T : Node p.method.size → Fact → Fact)
    (B A : Node p.method.size → Fact) : Prop where
  boundary : (A p.boundary).get = (boundaryFact p.method.params).get
  inflow : ∀ v, v ≠ p.boundary → ∀ x, (B v).get x = Value.meets ((p.sources v).map fun u ↦ (A u).get x)
  outflow : ∀ v, v ≠ p.boundary → (A v).get = (T v (B v)).get

/-- At each visit of the run the effect of the statement is that of `T`. -/
def Follows (p : Problem) (T : Node p.method.size → Fact → Fact) (strategy : Strategy) : Prop :=
  ∀ s v s', p.Reaches (p.start strategy) s → p.Visits s v s' →
    ((p.method.stmtAt v).effect (p.merged s v)).get = (T v (p.merged s v)).get

/-- No fact runs ahead of the facts that it is computed from, and nodes that do not wait are up to date. -/
structure Rising (p : Problem) (T : Node p.method.size → Fact → Fact) (s : State p.method.size) : Prop where
  inflow : ∀ v, v ≠ p.boundary → ∀ x,
    (s.before.get v).get x ≤ Value.meets ((p.sources v).map fun u ↦ (s.after.get u).get x)
  outflow : ∀ v, v ≠ p.boundary → s.after.get v ≤ T v (s.before.get v)
  done : ∀ v, v ≠ p.boundary → v ∉ s.worklist.queue → (s.after.get v).get = (T v (s.before.get v)).get

theorem meets_after_mono (h : ∀ u, s.after.get u ≤ s'.after.get u) (v : Node p.method.size) (x : Var) :
    Value.meets ((p.sources v).map fun u ↦ (s.after.get u).get x) ≤
      Value.meets ((p.sources v).map fun u ↦ (s'.after.get u).get x) := by
  refine Value.meets_le fun a ha ↦ ?_
  obtain ⟨u, hu, rfl⟩ := List.mem_map.1 ha
  exact (h u x).trans (Value.le_meets (List.mem_map_of_mem hu))

theorem before_start (p : Problem) (strategy : Strategy) (v : Node p.method.size) :
    (p.start strategy).before.get v = .empty := NodeMap.get_const _ _

theorem after_start (hv : v ≠ p.boundary) (strategy : Strategy) : (p.start strategy).after.get v = .empty := by
  rw [start, NodeMap.get_set, if_neg (Ne.symm hv), NodeMap.get_const]

theorem rising_start (p : Problem) (T : Node p.method.size → Fact → Fact) (strategy : Strategy) :
    p.Rising T (p.start strategy) where
  inflow v _ x := before_start p strategy v ▸ Value.undef_le _
  outflow v hv := after_start hv strategy ▸ Fact.empty_le _
  done v hv hq := by
    rw [start, Worklist.mem_pushAll Worklist.sound_empty, mem_agenda] at hq
    exact absurd (.inr hv) hq

section Visit

variable (hT : ∀ v, Monotone (T v)) (hs : p.Regular s) (h : p.Visits s v s')
  (hf : ((p.method.stmtAt v).effect (p.merged s v)).get = (T v (p.merged s v)).get)

include hs h hf in
theorem get_after_visited : (s'.after.get v).get = (T v (p.merged s v)).get := by
  rw [h.after, if_pos rfl, hs.get_output (hs.ne_boundary h), hf]

include hT hs h hf in
theorem Rising.after_le (hr : p.Rising T s) (u : Node p.method.size) : s.after.get u ≤ s'.after.get u := by
  by_cases he : v = u
  · subst he
    -- the fact before `v` may have risen since the last visit, and only a monotone map follows it
    calc s.after.get v ≤ T v (s.before.get v) := hr.outflow v (hs.ne_boundary h)
      _ ≤ T v (p.merged s v) := hT v (before_le_merged p s v)
      _ ≤ s'.after.get v := Fact.le_of_get_eq (get_after_visited hs h hf).symm
  · rw [h.after, if_neg he]

include hT hs h hf in
theorem Rising.visits (hr : p.Rising T s) : p.Rising T s' where
  inflow u hu x := by
    have hmono := meets_after_mono (hr.after_le hT hs h hf) u x
    refine le_trans ?_ hmono
    rw [h.before]
    split
    · next he =>
      subst he
      rw [merged, Fact.get_mergeAll, List.map_map]
      exact Value.meet_le le_rfl (hr.inflow v hu x)
    · exact hr.inflow u hu x
  outflow u hu := by
    by_cases he : v = u
    · subst he
      rw [h.before, if_pos rfl]
      exact Fact.le_of_get_eq (get_after_visited hs h hf)
    · rw [h.before, h.after, if_neg he, if_neg he]
      exact hr.outflow u hu
  done u hu huq := by
    by_cases he : v = u
    · subst he
      rw [h.before, if_pos rfl]
      exact get_after_visited hs h hf
    · rw [h.before, h.after, if_neg he, if_neg he]
      exact hr.done u hu fun hq ↦ huq ((hs.mem_queue h).2 (.inl ⟨hq, Ne.symm he⟩))

end Visit

theorem rising_reaches (hT : ∀ v, Monotone (T v)) {strategy : Strategy} (hf : p.Follows T strategy)
    (h : p.Reaches (p.start strategy) s) : p.Rising T s :=
  h.keeps (rising_start p T strategy) fun s v s' hreach hs hv hrising ↦ hrising.visits hT hs hv (hf s v s' hreach hv)

/-- Facts before and after the nodes that, on `S`, no visit of a run can rise above. -/
structure Ceiling (p : Problem) (strategy : Strategy) (S : Set Var) (B A : Node p.method.size → Fact) : Prop where
  boundary : (boundaryFact p.method.params).LeOn S (A p.boundary)
  inflow : ∀ v, v ≠ p.boundary → ∀ u ∈ p.sources v, (A u).LeOn S (B v)
  outflow : ∀ s v s', p.Reaches (p.start strategy) s → p.Visits s v s' → (p.merged s v).LeOn S (B v) →
    ((p.method.stmtAt v).effect (p.merged s v)).LeOn S (A v)

theorem leOn_reaches {S : Set Var} {strategy : Strategy} (hc : p.Ceiling strategy S B A)
    (h : p.Reaches (p.start strategy) s) :
    ∀ u, (s.before.get u).LeOn S (B u) ∧ (s.after.get u).LeOn S (A u) := by
  refine h.keeps (fun u ↦ ?_) fun s v s' hreach hs hv hle u ↦ ?_
  · refine ⟨before_start p strategy u ▸ .of_le (Fact.empty_le _), ?_⟩
    by_cases hu : u = p.boundary
    · subst hu
      rw [(regular_start p strategy).after_boundary]
      exact hc.boundary
    · exact after_start hu strategy ▸ .of_le (Fact.empty_le _)
  · rw [hv.before, hv.after]
    split
    · next he =>
      subst he
      have hne := hs.ne_boundary hv
      have hmerged : (p.merged s v).LeOn S (B v) := by
        refine Fact.mergeAll_leOn (fun f hf ↦ ?_) (hle v).1
        obtain ⟨w, hw, rfl⟩ := List.mem_map.1 hf
        exact (hle w).2.trans (hc.inflow v hne w hw)
      have hout : (p.output s v).1.LeOn S ((p.method.stmtAt v).effect (p.merged s v)) :=
        .of_le (Fact.le_of_get_eq (hs.get_output hne))
      exact ⟨hmerged, hout.trans (hc.outflow s v s' hreach hv hmerged)⟩
    · exact hle u

theorem SolvesBy.ceiling (hsol : p.SolvesBy T B A) (hT : ∀ v, Monotone (T v)) {strategy : Strategy}
    (hf : p.Follows T strategy) : p.Ceiling strategy Set.univ B A where
  boundary := .of_le (Fact.le_of_get_eq hsol.boundary.symm)
  inflow v hv u hu x _ := by
    rw [hsol.inflow v hv x]
    exact Value.le_meets (List.mem_map_of_mem hu)
  outflow s v s' hreach h hle := by
    have hv := ((regular_start p strategy).reaches hreach).ne_boundary h
    refine .of_le ?_
    calc (p.method.stmtAt v).effect (p.merged s v) ≤ T v (p.merged s v) := Fact.le_of_get_eq (hf s v s' hreach h)
      _ ≤ T v (B v) := hT v (Fact.leOn_univ.1 hle)
      _ ≤ A v := Fact.le_of_get_eq (hsol.outflow v hv).symm

theorem below_reaches (hT : ∀ v, Monotone (T v)) {strategy : Strategy} (hf : p.Follows T strategy)
    (hsol : p.SolvesBy T B A) (h : p.Reaches (p.start strategy) s) (u : Node p.method.size) :
    s.before.get u ≤ B u ∧ s.after.get u ≤ A u := by
  obtain ⟨hbefore, hafter⟩ := leOn_reaches (hsol.ceiling hT hf) h u
  exact ⟨Fact.leOn_univ.1 hbefore, Fact.leOn_univ.1 hafter⟩

/-- A run that follows monotone maps ends in the least solution of their equations. -/
theorem least_of_follows (hT : ∀ v, Monotone (T v)) (hf : p.Follows T c.strategy) (h : p.solve c = .ok sol) :
    p.SolvesBy T (sol.before p.direction).get (sol.after p.direction).get ∧
      ∀ B A, p.SolvesBy T B A → ∀ v,
        (sol.before p.direction).get v ≤ B v ∧ (sol.after p.direction).get v ≤ A v := by
  obtain ⟨s, hreach, hreg, hempty, rfl⟩ := solve_eq_ok h
  have hr := rising_reaches hT hf hreach
  rw [Solution.before_ofState, Solution.after_ofState]
  refine ⟨⟨?_, ?_, ?_⟩, fun B A hsol v ↦ below_reaches hT hf hsol hreach v⟩
  · rw [hreg.after_boundary]
  · intro v hv x
    refine le_antisymm (hr.inflow v hv x) (Value.meets_le fun a ha ↦ ?_)
    obtain ⟨u, hu, rfl⟩ := List.mem_map.1 ha
    exact (hreg.settled v hv (by simp [hempty])).inflow u hu x
  · exact fun v hv ↦ hr.done v hv (by simp [hempty])

theorem agrees_of_follows (hT : ∀ v, Monotone (T v)) {c' : Config} {sol' : Solution p.method.size}
    (hf : p.Follows T c.strategy) (hf' : p.Follows T c'.strategy)
    (h : p.solve c = .ok sol) (h' : p.solve c' = .ok sol') (v : Node p.method.size) :
    (sol.incoming.get v).agrees (sol'.incoming.get v) = true ∧
      (sol.outgoing.get v).agrees (sol'.outgoing.get v) = true := by
  obtain ⟨hsol, hleast⟩ := least_of_follows hT hf h
  obtain ⟨hsol', hleast'⟩ := least_of_follows hT hf' h'
  have hle := hleast _ _ hsol' v
  have hge := hleast' _ _ hsol v
  have hbefore := Fact.agrees_iff.2 (Fact.get_eq_of_le_of_le hle.1 hge.1)
  have hafter := Fact.agrees_iff.2 (Fact.get_eq_of_le_of_le hle.2 hge.2)
  cases hd : p.direction with
  | forward =>
    rw [hd] at hbefore hafter
    exact ⟨hbefore, hafter⟩
  | backward =>
    rw [hd] at hbefore hafter
    exact ⟨hafter, hbefore⟩

end Problem

end ConstantFlow
