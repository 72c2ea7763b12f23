import ConstantFlow.Proofs.Iteration

namespace ConstantFlow

namespace Fact

variable {f g t : Fact} {x : Var} {v : Value} {l : List Var}

def Within (f : Fact) (l : List Var) : Prop := ∀ x ∈ f.keys, x ∈ l

theorem empty_within (l : List Var) : empty.Within l := fun _ h ↦ nomatch h

theorem Within.set (h : f.Within l) (hx : x ∈ l) (v : Value) : (f.set x v).Within l := by
  intro y hy
  rcases mem_keys_set.1 hy with rfl | hy
  · exact hx
  · exact h y hy

theorem Within.merge (hf : f.Within l) (ht : t.Within l) : (f.merge t).Within l :=
  fun x hx ↦ (mem_keys_merge.1 hx).elim (hf x) (ht x)

theorem Within.mergeAll {fs : List Fact} (hfs : ∀ f ∈ fs, f.Within l) (ht : t.Within l) :
    (mergeAll fs t).Within l := by
  induction fs generalizing t with
  | nil => exact ht
  | cons f fs ih =>
    have hmerge : (f.merge t).Within l := (hfs f List.mem_cons_self).merge ht
    exact ih (fun g hg ↦ hfs g (List.mem_cons_of_mem f hg)) hmerge

theorem Within.copyFrom (hf : f.Within l) (hg : g.Within l) : (f.copyFrom g).1.Within l :=
  fun x hx ↦ (mem_keys_copyFrom.1 hx).elim (hg x) (hf x)

theorem Within.get_eq_undef (h : f.Within l) (hx : x ∉ l) : f.get x = .undef :=
  Fact.get_eq_undef fun hk ↦ hx (h x hk)

end Fact

def Stmt.assigned? (s : Stmt) : Option Var :=
  match s.definition? with
  | some (.var x, _) => some x
  | _ => none

theorem Stmt.assigned?_of_tracked {s : Stmt} {x : Var} {e : Exp} (h : s.tracked? = some (x, e)) :
    s.assigned? = some x ∧ x.isTracked = true := by
  obtain ⟨hd, hx⟩ := tracked?_eq_some.1 h
  rw [assigned?, hd]
  exact ⟨rfl, hx⟩

namespace Method

variable {m : Method} {x : Var}

/-- The tracked variables that the method has as parameters or assigns, each once. -/
def trackedVars (m : Method) : List Var :=
  ((m.params ++ m.listing.filterMap Stmt.assigned?).filter Var.isTracked).eraseDups

theorem mem_trackedVars :
    x ∈ m.trackedVars ↔ (x ∈ m.params ∨ ∃ k, (m.stmt k).assigned? = some x) ∧ x.isTracked = true := by
  rw [trackedVars, List.mem_eraseDups, List.mem_filter, List.mem_append, List.mem_filterMap]
  refine and_congr_left fun _ ↦ or_congr_right ?_
  constructor
  · rintro ⟨s, hs, hx⟩
    obtain ⟨k, -, rfl⟩ := List.mem_map.1 hs
    exact ⟨k, hx⟩
  · rintro ⟨k, hx⟩
    exact ⟨m.stmt k, List.mem_map_of_mem (m.mem_code k), hx⟩

theorem mem_trackedVars_of_tracked {v : Node m.size} {e : Exp} (h : (m.stmtAt v).tracked? = some (x, e)) :
    x ∈ m.trackedVars := by
  cases v with
  | entry => cases h
  | exit => cases h
  | stmt k =>
    obtain ⟨hx, ht⟩ := Stmt.assigned?_of_tracked h
    exact mem_trackedVars.2 ⟨.inr ⟨k, hx⟩, ht⟩

theorem boundaryFact_within (m : Method) : (boundaryFact m.params).Within m.trackedVars := by
  have hfold (l : List Var) (f : Fact) (hl : ∀ x ∈ l, x ∈ m.trackedVars) (hf : f.Within m.trackedVars) :
      (l.foldl (fun f x ↦ f.set x .nac) f).Within m.trackedVars := by
    induction l generalizing f with
    | nil => exact hf
    | cons x l ih =>
      exact ih _ (fun y hy ↦ hl y (List.mem_cons_of_mem x hy)) (hf.set (hl x List.mem_cons_self) .nac)
  refine hfold _ _ (fun x hx ↦ ?_) (Fact.empty_within _)
  obtain ⟨hx, ht⟩ := List.mem_filter.1 hx
  exact mem_trackedVars.2 ⟨.inl hx, ht⟩

theorem effect_within {v : Node m.size} {f : Fact} (h : f.Within m.trackedVars) :
    ((m.stmtAt v).effect f).Within m.trackedVars := by
  cases hd : (m.stmtAt v).tracked? with
  | none => rwa [Stmt.effect_untracked hd]
  | some d =>
    obtain ⟨x, e⟩ := d
    rw [Stmt.effect_tracked hd]
    exact h.set (mem_trackedVars_of_tracked hd) _

end Method

namespace Problem

variable {p : Problem} {s s' : State p.method.size} {v : Node p.method.size}

structure Scoped (p : Problem) (s : State p.method.size) : Prop where
  before : ∀ v, (s.before.get v).Within p.method.trackedVars
  after : ∀ v, (s.after.get v).Within p.method.trackedVars

theorem Scoped.merged (hs : p.Scoped s) (v : Node p.method.size) :
    (p.merged s v).Within p.method.trackedVars := by
  refine Fact.Within.mergeAll (fun f hf ↦ ?_) (hs.before v)
  obtain ⟨u, -, rfl⟩ := List.mem_map.1 hf
  exact hs.after u

theorem scoped_start (p : Problem) (strategy : Strategy) : p.Scoped (p.start strategy) where
  before v := by
    rw [start, NodeMap.get_const]
    exact Fact.empty_within _
  after v := by
    rw [start, NodeMap.get_set]
    split
    · exact p.method.boundaryFact_within
    · rw [NodeMap.get_const]
      exact Fact.empty_within _

theorem Scoped.visits (hs : p.Scoped s) (h : p.Visits s v s') : p.Scoped s' where
  before u := by
    rw [h.before]
    split
    · exact hs.merged v
    · exact hs.before u
  after u := by
    rw [h.after]
    split
    · exact (hs.after v).copyFrom (Method.effect_within (hs.merged v))
    · exact hs.after u

theorem scoped_reaches {strategy : Strategy} (h : p.Reaches (p.start strategy) s) : p.Scoped s :=
  h.keeps (scoped_start p strategy) fun _ _ _ _ _ hv hs ↦ hs.visits hv

end Problem

end ConstantFlow
