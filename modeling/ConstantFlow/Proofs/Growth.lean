import ConstantFlow.Proofs.Variables

namespace ConstantFlow

namespace Fact

variable {f g t : Fact}

theorem keys_prefix_merge (f t : Fact) : t.keys <+: (f.merge t).keys := by
  rw [merge, meetEntries, keys_foldl_set Value.meet f.nodup_entries]
  exact List.prefix_append _ _

theorem keys_prefix_mergeAll (l : List Fact) (t : Fact) : t.keys <+: (mergeAll l t).keys := by
  induction l generalizing t with
  | nil => exact List.prefix_rfl
  | cons f l ih => exact (keys_prefix_merge f t).trans (ih _)

theorem keys_prefix_copyFrom (f g : Fact) : f.keys <+: (f.copyFrom g).1.keys := by
  rw [copyFrom_eq, setEntries, keys_foldl_set (fun v _ ↦ v) g.nodup_entries]
  exact List.prefix_append _ _

end Fact

theorem Stmt.assigned?_eq_some {s : Stmt} {x : Var} :
    s.assigned? = some x ↔ ∃ e, s.definition? = some (.var x, e) := by
  unfold assigned?
  split
  · next y e hd => simp [hd]
  · next hd =>
    refine ⟨nofun, fun ⟨e, he⟩ ↦ ?_⟩
    exact absurd he (hd x e)

theorem Stmt.mem_exps_of_definition? {s : Stmt} {place e : Exp} (h : s.definition? = some (place, e)) :
    place ∈ s.exps := by
  cases s with
  | assign target value =>
    cases h
    exact List.mem_cons_self
  | invoke call result =>
    cases result with
    | none => cases h
    | some x =>
      cases h
      exact List.mem_cons_self
  | _ => cases h

namespace Method

variable {m : Method} {x : Var}

/-- A variable that a fact may speak about. -/
structure Eligible (m : Method) (x : Var) : Prop where
  tracked : x.isTracked = true
  listed : x ∈ m.vars
  origin : x ∈ m.params ∨ ∃ k e, (m.stmt k).definition? = some (.var x, e)

theorem mem_vars : x ∈ m.vars ↔ x ∈ m.params ∨ ∃ k, x ∈ (m.stmt k).vars := by
  rw [vars, List.mem_eraseDups, List.mem_append, List.mem_flatMap]
  refine or_congr_right ?_
  constructor
  · rintro ⟨s, hs, hx⟩
    obtain ⟨k, -, rfl⟩ := List.mem_map.1 hs
    exact ⟨k, hx⟩
  · intro ⟨k, hx⟩
    exact ⟨m.stmt k, List.mem_map_of_mem (m.mem_code k), hx⟩

theorem eligible_iff : m.Eligible x ↔ x ∈ m.trackedVars := by
  simp only [mem_trackedVars, Stmt.assigned?_eq_some]
  constructor
  · intro h
    exact ⟨h.origin, h.tracked⟩
  · intro ⟨horigin, htracked⟩
    refine ⟨htracked, mem_vars.2 ?_, horigin⟩
    obtain hx | ⟨k, e, hd⟩ := horigin
    · exact .inl hx
    · have hplace := Stmt.mem_exps_of_definition? hd
      exact .inr ⟨k, List.mem_flatMap.2 ⟨_, hplace, List.mem_singleton_self x⟩⟩

end Method

namespace Problem

variable {p : Problem} {s s' s'' : State p.method.size} {v : Node p.method.size} {strategy : Strategy}

structure Grows (p : Problem) (s s' : State p.method.size) : Prop where
  before_leq : ∀ v, (s.before.get v).leq (s'.before.get v) = true
  before_keys : ∀ v, (s.before.get v).keys <+: (s'.before.get v).keys
  after_keys : ∀ v, (s.after.get v).keys <+: (s'.after.get v).keys

theorem Grows.refl (s : State p.method.size) : p.Grows s s :=
  ⟨fun _ ↦ Fact.leq_iff.2 le_rfl, fun _ ↦ List.prefix_rfl, fun _ ↦ List.prefix_rfl⟩

theorem Grows.trans (h : p.Grows s s') (h' : p.Grows s' s'') : p.Grows s s'' where
  before_leq v := Fact.leq_iff.2 ((Fact.leq_iff.1 (h.before_leq v)).trans (Fact.leq_iff.1 (h'.before_leq v)))
  before_keys v := (h.before_keys v).trans (h'.before_keys v)
  after_keys v := (h.after_keys v).trans (h'.after_keys v)

theorem Visits.grows (h : p.Visits s v s') : p.Grows s s' where
  before_leq u := by
    rw [Fact.leq_iff, h.before]
    split
    · next hu => exact hu ▸ before_le_merged p s v
    · exact le_rfl
  before_keys u := by
    rw [h.before]
    split
    · next hu => exact hu ▸ Fact.keys_prefix_mergeAll _ _
    · exact List.prefix_rfl
  after_keys u := by
    rw [h.after]
    split
    · next hu => exact hu ▸ Fact.keys_prefix_copyFrom _ _
    · exact List.prefix_rfl

theorem Reaches.grows (h : p.Reaches s s') : p.Grows s s' := by
  induction h with
  | refl => exact .refl s
  | tail _ hstep ih =>
    obtain ⟨v, hv⟩ := hstep
    exact ih.trans hv.grows

/-- Wherever a run has got to, its facts speak about eligible variables only; and with each further round, or with any
number of them, the facts before the nodes rise or stay, and no fact loses a key or moves it. -/
theorem facts_stay_eligible (h : p.Reaches (p.start strategy) s) :
    (∀ v x, x ∈ (s.before.get v).keys ∨ x ∈ (s.after.get v).keys → p.method.Eligible x) ∧
      ∀ s', p.Reaches s s' → p.Grows s s' := by
  have hscope := scoped_reaches h
  refine ⟨fun v x hx ↦ Method.eligible_iff.2 ?_, fun s' hs' ↦ hs'.grows⟩
  obtain hx | hx := hx
  · exact hscope.before v x hx
  · exact hscope.after v x hx

end Problem

def Method.storing : Method :=
  ((((empty "storing" [.int "n", ⟨"l", .primitive .long⟩]).push
    (.assign (.var ⟨"w", .primitive .long⟩) (.var ⟨"l", .primitive .long⟩))).push
    (.assign (.element (.var ⟨"a", .reference "int[]"⟩) (.var (.int "n"))) (.literal (.int 1)))).push
    (.assign (.var (.int "i")) (.binary (.arithmetic .add) (.var (.int "n")) (.literal (.int 1))))).push
    (.ret (some (.var (.int "i"))))

namespace Problem

theorem storing_eligible :
    Method.storing.vars = [.int "n", ⟨"l", .primitive .long⟩, ⟨"w", .primitive .long⟩, ⟨"a", .reference "int[]"⟩,
      .int "i"] ∧
    ∃ s, (ofMethod .storing).Reaches ((ofMethod .storing).start .rpo) s ∧
      (s.before.get .exit).entries = [(.int "n", .nac), (.int "i", .nac)] ∧
      (∀ v x, x ∈ (s.before.get v).keys ∨ x ∈ (s.after.get v).keys → Method.storing.Eligible x) ∧
      (ofMethod .storing).Grows ((ofMethod .storing).start .rpo) s := by
  have hreturns : ((ofMethod .storing).solve .default).toOption.any
      (fun sol ↦ (sol.incoming.get .exit).entries = [(.int "n", .nac), (.int "i", .nac)]) = true := by decide +kernel
  obtain ⟨sol, h, hexit⟩ := exists_solve hreturns
  obtain ⟨s, hreach, -, -, rfl⟩ := solve_eq_ok h
  obtain ⟨heligible, -⟩ := facts_stay_eligible hreach
  have hstart : (ofMethod .storing).Reaches ((ofMethod .storing).start .rpo) ((ofMethod .storing).start .rpo) := .refl
  obtain ⟨-, hgrows⟩ := facts_stay_eligible hstart
  exact ⟨by decide, s, hreach, of_decide_eq_true hexit, heligible, hgrows s hreach⟩

end Problem

end ConstantFlow
