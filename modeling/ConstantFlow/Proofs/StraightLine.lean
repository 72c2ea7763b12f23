import ConstantFlow.Proofs.ControlFlow
import ConstantFlow.Proofs.LeastSolution
import ConstantFlow.Proofs.Soundness
import ConstantFlow.Proofs.Termination
import ConstantFlow.Proofs.Words

namespace ConstantFlow

namespace BinaryOp

variable {op : BinaryOp} {x y z : Int32}

def isModelled : BinaryOp → Bool
  | comparison _ => false
  | unknown _ => false
  | _ => true

theorem fold_ne_nac (hm : op.isModelled = true) (x y : Int) : op.fold x y ≠ .nac := by
  intro h
  cases op with
  | arithmetic a =>
    rw [fold] at h
    split at h <;> cases h
  | comparison _ => cases hm
  | unknown _ => cases hm
  | _ => cases h

theorem combine_ne_nac {v w : Value} (hm : op.isModelled = true) (hv : v ≠ .nac) (hw : w ≠ .nac) :
    op.combine v w ≠ .nac := by
  intro h
  cases v with
  | nac => exact hv rfl
  | undef =>
    cases w with
    | nac => exact hw rfl
    | _ => cases h
  | const x =>
    cases w with
    | nac => exact hw rfl
    | undef => cases h
    | const y => exact fold_ne_nac hm _ _ h

theorem fold_eq_of_yields (hm : op.isModelled = true) (h : op.Yields x y z) :
    op.fold x.toInt y.toInt = .const z :=
  (Value.const_le.1 (fold_of_yields h)).resolve_left (fold_ne_nac hm _ _)

theorem exists_yields (hm : op.isModelled = true) (h : op.divides = true → y ≠ 0) (x : Int32) :
    ∃ z, op.Yields x y z := by
  cases op with
  | arithmetic a =>
    refine Option.ne_none_iff_exists'.1 fun hn ↦ ?_
    obtain ⟨hd, hy⟩ := ArithmeticOp.run_eq_none.1 hn
    exact h hd hy
  | comparison _ => cases hm
  | unknown _ => cases hm
  | _ => exact ⟨_, rfl⟩

end BinaryOp

variable {σ σ' : Store} {l : List Var} {f lo : Fact} {n : Int32}

/-- A fact has the numbers of some variables, and they are the ones in the registers. -/
def Fact.Knows (f : Fact) (l : List Var) (σ : Store) : Prop := ∀ x ∈ l, ∃ n, σ x = some n ∧ f.get x = .const n

namespace Exp

variable {e : Exp}

/-- Expressions of numbers, some variables, and operators on registers. -/
inductive BuiltFrom (l : List Var) : Exp → Prop
  | literal (c : Int32) : BuiltFrom l (.literal (.int c))
  | var {x : Var} : x ∈ l → BuiltFrom l (.var x)
  | binary {op : BinaryOp} {a b : Exp} : op.isModelled = true → BuiltFrom l a → BuiltFrom l b →
      BuiltFrom l (.binary op a b)

def DividesByZero (σ : Store) : Exp → Prop
  | binary op a b => op.divides = true ∧ b.Yields σ 0 ∨ a.DividesByZero σ ∨ b.DividesByZero σ
  | _ => False

theorem BuiltFrom.improper?_eq_none (h : e.BuiltFrom l) : e.improper? = none := by
  induction h with
  | literal c => rfl
  | var _ => rfl
  | binary _ _ _ iha ihb => rw [improper?, iha, ihb, Option.or_none]

theorem BuiltFrom.exists_yields (h : e.BuiltFrom l) (hσ : f.Knows l σ) (hd : ¬ e.DividesByZero σ) :
    ∃ n, e.Yields σ n := by
  induction h with
  | literal c => exact ⟨c, .literal c⟩
  | var hx =>
    obtain ⟨n, hn, -⟩ := hσ _ hx
    exact ⟨n, .var hn⟩
  | binary hm _ _ iha ihb =>
    obtain ⟨hzero, ha, hb⟩ : _ ∧ _ ∧ _ := by simpa only [DividesByZero, not_or] using hd
    obtain ⟨x, hx⟩ := iha ha
    obtain ⟨y, hy⟩ := ihb hb
    obtain ⟨z, hz⟩ := BinaryOp.exists_yields hm (fun hdiv he ↦ hzero ⟨hdiv, he ▸ hy⟩) x
    exact ⟨z, .binary hx hy hz⟩

theorem BuiltFrom.value_eq (h : e.BuiltFrom l) (hf : f.Knows l σ) (hn : e.Yields σ n) : e.value f = .const n := by
  induction h generalizing n with
  | literal c =>
    cases hn with
    | literal _ => rfl
    | unopened _ he => cases he
  | var hx =>
    cases hn with
    | var hσ =>
      obtain ⟨c, hc, hget⟩ := hf _ hx
      cases hσ.symm.trans hc
      exact hget
    | unopened _ he => cases he
  | binary hm _ _ iha ihb =>
    cases hn with
    | binary hx hy hz =>
      rw [value, iha hx, ihb hy]
      exact BinaryOp.fold_eq_of_yields hm hz
    | unopened _ he => cases he

theorem BuiltFrom.value_ne_nac (h : e.BuiltFrom l) (hf : f.Knows l σ) : e.value f ≠ .nac := by
  induction h with
  | literal c => exact Value.noConfusion
  | var hx =>
    obtain ⟨c, -, hget⟩ := hf _ hx
    rw [value, hget]
    exact Value.noConfusion
  | binary hm _ _ iha ihb => exact BinaryOp.combine_ne_nac hm iha ihb

theorem BuiltFrom.value_eq_undef (h : e.BuiltFrom l) (hf : f.Knows l σ) (hzero : e.DividesByZero σ) :
    e.value f = .undef := by
  induction h with
  | literal _ => exact hzero.elim
  | var _ => exact hzero.elim
  | binary _ ha hb iha ihb =>
    rw [value]
    rcases hzero with ⟨hdiv, hy⟩ | hzero | hzero
    · rw [hb.value_eq hf hy, BinaryOp.combine_zero hdiv]
    · rw [iha hzero]
      exact (BinaryOp.combine_undef_left _ _).resolve_right fun h ↦ hb.value_ne_nac hf h.2
    · rw [ihb hzero]
      exact (BinaryOp.combine_undef_right _ _).resolve_right fun h ↦ ha.value_ne_nac hf h.2

theorem BuiltFrom.not_collapses (h : e.BuiltFrom l) (hf : f.Knows l σ) (hn : e.Yields σ n) :
    ¬ e.Collapses lo f := by
  induction h generalizing n with
  | literal c => exact id
  | var _ => exact id
  | binary _ ha _ iha ihb =>
    cases hn with
    | binary hx hy _ =>
      rintro (⟨-, -, -, hnac, -⟩ | hc | hc)
      · cases hnac.symm.trans (ha.value_eq hf hx)
      · exact iha hx hc
      · exact ihb hy hc
    | unopened _ he => cases he

end Exp

theorem Stmt.knows_effect {s : Stmt} (hb : ∀ x e, s.tracked? = some (x, e) → e.BuiltFrom l) (hf : f.Knows l σ)
    (hw : s.Writes σ σ') : (s.effect f).Knows (l ++ (s.tracked?.map Prod.fst).toList) σ' := by
  unfold Writes at hw
  cases hd : s.tracked? with
  | none =>
    rw [hd] at hw
    obtain rfl := hw
    rwa [effect_untracked hd, Option.map_none, Option.toList_none, List.append_nil]
  | some d =>
    obtain ⟨x, e⟩ := d
    rw [hd] at hw
    obtain ⟨n, hn, rfl⟩ := hw
    intro y hy
    rw [get_effect_tracked hd]
    by_cases hxy : x = y
    · subst hxy
      exact ⟨n, Function.update_self .., by rw [if_pos rfl, (hb x e hd).value_eq hf hn]⟩
    · have hmem : y ∈ l := (List.mem_append.1 hy).resolve_right fun h ↦ hxy (List.mem_singleton.1 h).symm
      rw [if_neg hxy, Function.update_of_ne (Ne.symm hxy)]
      exact hf y hmem

namespace Method

variable {m : Method} {i j : Nat} {k : Fin m.size} {σ₀ : Store}

def assignedBefore (m : Method) (i : Nat) : List Var :=
  (m.code.take i).filterMap fun k ↦ (m.stmt k).tracked?.map Prod.fst

/-- No statement stands twice, control goes from each to the next, and the tracked definitions are built from
variables that were assigned before. -/
structure StraightLine (m : Method) : Prop where
  distinct : m.code.Nodup
  unbranched : ∀ k, (m.stmt k).target? = none
  returns : ∀ i k value, m.code[i]? = some k → m.stmt k = .ret value → i + 1 = m.code.length
  built : ∀ i k x e, m.code[i]? = some k → (m.stmt k).tracked? = some (x, e) → e.BuiltFrom (m.assignedBefore i)

def DividesByZero (m : Method) (σ₀ : Store) : Prop :=
  ∃ i σ k x e, m.Reaches σ₀ ⟨i, σ⟩ ∧ m.code[i]? = some k ∧ (m.stmt k).tracked? = some (x, e) ∧ e.DividesByZero σ

def factBefore (m : Method) : Nat → Fact
  | 0 => boundaryFact m.params
  | i + 1 => (m.stmtAt (m.site i)).effect (m.factBefore i)

def position (m : Method) : Node m.size → Nat
  | .entry => 0
  | .exit => m.code.length
  | .stmt k => m.code.idxOf k

theorem assignedBefore_succ (hk : m.code[i]? = some k) :
    m.assignedBefore (i + 1) = m.assignedBefore i ++ ((m.stmt k).tracked?.map Prod.fst).toList := by
  rw [assignedBefore, List.take_add_one, hk, List.filterMap_append, ← assignedBefore]
  cases h : (m.stmt k).tracked? <;> simp [h]

theorem factBefore_succ (hk : m.code[i]? = some k) : m.factBefore (i + 1) = (m.stmt k).effect (m.factBefore i) := by
  rw [factBefore, site_eq hk, stmtAt]

namespace StraightLine

variable (h : m.StraightLine)

include h

theorem jumpsInRange : m.JumpsInRange := fun k _ ht ↦ nomatch (h.unbranched k).symm.trans ht

theorem isProper (k : Fin m.size) : (m.stmt k).IsProper := by
  obtain ⟨i, hi⟩ := List.mem_iff_getElem?.1 (m.mem_code k)
  exact fun x e hd ↦ (h.built i k x e hi hd).improper?_eq_none

theorem goes_iff (hk : m.code[i]? = some k) : m.Goes i (m.stmt k) j ↔ j = i + 1 := by
  have hnone := h.unbranched k
  have hret := fun value ↦ h.returns i k value hk
  generalize m.stmt k = s at hnone hret
  cases s with
  | goto _ => cases hnone
  | branch _ _ => cases hnone
  | ret value =>
    rw [hret value rfl]
    exact Iff.rfl
  | _ => exact Iff.rfl

theorem position_site (hi : i ≤ m.code.length) : m.position (m.site i) = i := by
  rcases hi.lt_or_eq with hi | rfl
  · rw [site_eq (List.getElem?_eq_getElem hi), position, h.distinct.idxOf_getElem]
  · rw [site_length, position]

theorem knows_step (hstep : m.Step ⟨i, σ⟩ ⟨j, σ'⟩) (hf : (m.factBefore i).Knows (m.assignedBefore i) σ) :
    (m.factBefore j).Knows (m.assignedBefore j) σ' := by
  cases hstep with
  | @step _ _ k _ _ hk hw hg =>
    obtain rfl := (h.goes_iff hk).1 hg
    rw [factBefore_succ hk, assignedBefore_succ hk]
    exact Stmt.knows_effect (fun x e ↦ h.built i k x e hk) hf hw

theorem knows_reaches {r : Moment} (hr : m.Reaches σ₀ r) :
    (m.factBefore r.position).Knows (m.assignedBefore r.position) r.store := by
  induction hr with
  | refl => exact fun x hx ↦ absurd hx List.not_mem_nil
  | tail _ hstep ih => exact h.knows_step hstep ih

theorem exists_yields (hdiv : ¬ m.DividesByZero σ₀) (hr : m.Reaches σ₀ ⟨i, σ⟩) (hk : m.code[i]? = some k)
    {x : Var} {e : Exp} (hd : (m.stmt k).tracked? = some (x, e)) : ∃ n, e.Yields σ n :=
  (h.built i k x e hk hd).exists_yields (h.knows_reaches hr) fun hzero ↦ hdiv ⟨i, σ, k, x, e, hr, hk, hd, hzero⟩

theorem exists_reaches (hdiv : ¬ m.DividesByZero σ₀) (hi : i ≤ m.code.length) : ∃ σ, m.Reaches σ₀ ⟨i, σ⟩ := by
  induction i with
  | zero => exact ⟨σ₀, .refl⟩
  | succ i ih =>
    obtain ⟨σ, hr⟩ := ih (by omega)
    have hk : m.code[i]? = some m.code[i] := List.getElem?_eq_getElem hi
    have hw : ∃ σ', (m.stmt m.code[i]).Writes σ σ' := by
      unfold Stmt.Writes
      cases hd : (m.stmt m.code[i]).tracked? with
      | none => exact ⟨σ, rfl⟩
      | some d =>
        obtain ⟨n, hn⟩ := h.exists_yields hdiv hr hk hd
        exact ⟨_, n, hn, rfl⟩
    obtain ⟨σ', hw⟩ := hw
    exact ⟨σ', hr.tail (.step hk hw ((h.goes_iff hk).2 rfl))⟩

/-- The facts that the statements leave in turn are never exceeded, whatever is visited first. -/
theorem ceiling (hdiv : ¬ m.DividesByZero σ₀) {g : Graph m.size} (hg : ∀ u v, (u, v) ∈ g.edges → m.Flows u v)
    (checked : Bool) (strategy : Strategy) :
    (⟨m, g, .forward, checked⟩ : Problem).Ceiling strategy Set.univ (fun v ↦ m.factBefore (m.position v))
      fun v ↦ (m.stmtAt v).effect (m.factBefore (m.position v)) where
  boundary := .refl _ _
  inflow v _ u hu := by
    have hflow := hg u v ((g.mem_predecessors u v).1 hu)
    refine .of_le (le_of_eq ?_)
    cases hflow with
    | enter =>
      rw [h.position_site (Nat.zero_le _)]
      rfl
    | @step i j k hk hgoes =>
      obtain rfl := (h.goes_iff hk).1 hgoes
      have hi := (List.getElem?_eq_some_iff.1 hk).1
      have hpos : m.position (.stmt k) = i := site_eq hk ▸ h.position_site hi.le
      rw [h.position_site hi, hpos, factBefore_succ hk]
      rfl
  outflow s v s' _ _ hle := by
    refine .of_le (Stmt.effect_le (Fact.leOn_univ.1 hle) fun x e hd ↦ ?_)
    cases v with
    | entry => cases hd
    | exit => cases hd
    | stmt k =>
      -- the run comes to this statement, so above it the operands of the definition are all known
      have hi : m.code.idxOf k < m.code.length := List.idxOf_lt_length_of_mem (m.mem_code k)
      have hk : m.code[m.code.idxOf k]? = some k := List.getElem?_idxOf (m.mem_code k)
      obtain ⟨σ, hr⟩ := h.exists_reaches hdiv hi.le
      obtain ⟨n, hn⟩ := h.exists_yields hdiv hr hk hd
      exact Exp.value_le_of_not_collapses (Fact.leOn_univ.1 hle)
        ((h.built _ k x e hk hd).not_collapses (h.knows_reaches hr) hn)

/-- A solver comes to the facts that the statements leave in turn, since control takes them from each statement
to the next and nothing rises above them. -/
theorem get_of_solve (hdiv : ¬ m.DividesByZero σ₀) {g : Graph m.size}
    (hg : ∀ u v, (u, v) ∈ g.edges ↔ m.Flows u v) {checked : Bool} {c : Config} {sol : Solution m.size}
    (hsol : (⟨m, g, .forward, checked⟩ : Problem).solve c = .ok sol) (hi : i ≤ m.code.length) :
    (sol.incoming.get (m.site i)).get = (m.factBefore i).get ∧
      (sol.outgoing.get (m.site i)).get = (m.factBefore (i + 1)).get := by
  have hflows := Solution.flows_of_solve hsol
  have hbelow (i) (hi : i ≤ m.code.length) : sol.incoming.get (m.site i) ≤ m.factBefore i := by
    obtain ⟨s, hreach, -, -, rfl⟩ := Problem.solve_eq_ok hsol
    have hle := Problem.leOn_reaches (h.ceiling hdiv (fun u v ↦ (hg u v).1) checked c.strategy) hreach (m.site i)
    rw [h.position_site hi] at hle
    exact Fact.leOn_univ.1 hle.1
  have hafter (i) (hin : (sol.incoming.get (m.site i)).get = (m.factBefore i).get) :
      (sol.outgoing.get (m.site i)).get = (m.factBefore (i + 1)).get :=
    (hflows.stmt _ (m.site_ne_entry i)).trans (Stmt.get_effect_congr hin _)
  have hbefore : (sol.incoming.get (m.site i)).get = (m.factBefore i).get := by
    induction i with
    | zero =>
      have hle := hflows.edge _ _ ((hg _ _).2 .enter) (m.site_ne_entry 0)
      rw [hflows.entry] at hle
      exact Fact.get_eq_of_le_of_le (hbelow 0 hi) hle
    | succ i ih =>
      have hk : m.code[i]? = some m.code[i] := List.getElem?_eq_getElem hi
      have hedge := (hg _ _).2 (.step hk ((h.goes_iff hk).2 rfl))
      have hle := hflows.edge _ _ (site_eq hk ▸ hedge) (m.site_ne_entry (i + 1))
      exact Fact.get_eq_of_le_of_le (hbelow _ hi) ((Fact.le_of_get_eq (hafter i (ih (by omega))).symm).trans hle)
  exact ⟨hbefore, hafter i hbefore⟩

end StraightLine

/-- Unless its run divides by zero, straight-line code runs to its end, and a solver that may make enough visits
returns; it knows after each statement the number of every variable assigned so far, and what it finds before a
statement is what it found after the one before. -/
theorem solve_straightLine (m : Method) (h : m.StraightLine) (σ₀ : Store) (hdiv : ¬ m.DividesByZero σ₀) :
    ∃ g, m.graph = .ok g ∧ ∀ (checked : Bool) (c : Config),
      ((⟨m, g, .forward, checked⟩ : Problem).visitBound ≤ c.maxIterations.steps →
        ∃ sol, (⟨m, g, .forward, checked⟩ : Problem).solve c = .ok sol) ∧
      ∀ sol, (⟨m, g, .forward, checked⟩ : Problem).solve c = .ok sol → ∀ i < m.code.length,
        (∃ σ, m.Reaches σ₀ ⟨i + 1, σ⟩) ∧
        (∀ σ, m.Reaches σ₀ ⟨i + 1, σ⟩ → ∀ x ∈ m.assignedBefore (i + 1),
          ∃ n, σ x = some n ∧ sol.constantAt (m.site i) x = some n) ∧
        (sol.incoming.get (m.site (i + 1))).agrees (sol.outgoing.get (m.site i)) = true := by
  obtain ⟨g, hgraph, -, hg⟩ | ⟨e, -, he⟩ := m.graph_cases
  · refine ⟨g, hgraph, fun checked c ↦ ⟨Problem.exists_solve_of_visitBound_le h.isProper, fun sol hsol i hi ↦ ?_⟩⟩
    have hout := (h.get_of_solve hdiv hg hsol hi.le).2
    have hin := (h.get_of_solve hdiv hg hsol hi).1
    refine ⟨h.exists_reaches hdiv hi, fun σ hr x hx ↦ ?_, Fact.agrees_iff.2 (hin.trans hout.symm)⟩
    obtain ⟨n, hn, hget⟩ := h.knows_reaches hr x hx
    refine ⟨n, hn, ?_⟩
    rw [Solution.constantAt, hout, hget, Value.constant?]
  · exact absurd he h.jumpsInRange.not_firstDangling

/-- Writes seven over the parameter `b`, then its quotient by three over that, and shifts what is left. -/
def shifting : Method :=
  (((((empty "shifting" [.int "b"]).push (.assign (.var (.int "a")) (.literal (.int 3)))).push
    (.assign (.var (.int "b")) (.binary (.arithmetic .add) (.var (.int "a")) (.literal (.int 4))))).push
    (.assign (.var (.int "b")) (.binary (.arithmetic .div) (.var (.int "b")) (.var (.int "a"))))).push
    (.assign (.var (.int "c")) (.binary (.shift .shl) (.var (.int "b")) (.var (.int "a"))))).push
    (.ret (some (.var (.int "c"))))

theorem straightLine_shifting : shifting.StraightLine where
  distinct := by decide
  unbranched := by decide
  returns i k value hk hret := by
    match i, hk with
    | 0, rfl | 1, rfl | 2, rfl | 3, rfl => cases hret
    | 4, rfl => rfl
    | i + 5, hk => cases hk
  built i k x e hk hd := by
    match i, hk with
    | 0, rfl =>
      cases hd
      exact .literal 3
    | 1, rfl =>
      cases hd
      exact .binary rfl (.var (by decide)) (.literal 4)
    | 2, rfl | 3, rfl =>
      cases hd
      exact .binary rfl (.var (by decide)) (.var (by decide))
    | 4, rfl => cases hd
    | i + 5, hk => cases hk

theorem not_dividesByZero_shifting (σ₀ : Store) : ¬ shifting.DividesByZero σ₀ := by
  rintro ⟨i, σ, k, x, e, hr, hk, hd, hzero⟩
  have hknows : (shifting.factBefore i).Knows (shifting.assignedBefore i) σ := straightLine_shifting.knows_reaches hr
  have hundef := (straightLine_shifting.built i k x e hk hd).value_eq_undef hknows hzero
  match i, hk with
  | 0, rfl | 1, rfl | 2, rfl | 3, rfl =>
    cases hd
    revert hundef
    decide
  | 4, rfl => cases hd
  | i + 5, hk => cases hk

theorem shifting_result : shifting.StraightLine ∧ (∀ σ₀, ¬ shifting.DividesByZero σ₀) ∧
    ∀ strategy, ∃ sol, (Problem.ofMethod shifting).solve { Config.default with strategy := strategy } = .ok sol ∧
      ∀ σ₀ σ, shifting.Reaches σ₀ ⟨4, σ⟩ →
        σ (.int "c") = some 16 ∧ sol.constantAt (shifting.site 3) (.int "c") = some 16 := by
  refine ⟨straightLine_shifting, not_dividesByZero_shifting, fun strategy ↦ ?_⟩
  have hbound : (Problem.ofMethod shifting).visitBound ≤ 1000000 := by decide +kernel
  have hc : .int "c" ∈ shifting.assignedBefore 4 := by decide
  have hsixteen : (shifting.factBefore 4).get (.int "c") = .const 16 := by decide
  have hsolve (σ₀ : Store) := solve_straightLine shifting straightLine_shifting σ₀ (not_dividesByZero_shifting σ₀)
  obtain ⟨g, hgraph, hreturns⟩ := hsolve fun _ ↦ none
  obtain rfl : (Problem.ofMethod shifting).graph = g := Except.ok.inj hgraph
  obtain ⟨sol, h⟩ := (hreturns true { Config.default with strategy := strategy }).1 hbound
  refine ⟨sol, h, fun σ₀ σ hr ↦ ?_⟩
  obtain ⟨g, hgraph, hexact⟩ := hsolve σ₀
  obtain rfl : (Problem.ofMethod shifting).graph = g := Except.ok.inj hgraph
  obtain ⟨n, hn, hat⟩ := ((hexact true _).2 sol h 3 (by decide)).2.1 σ hr _ hc
  obtain ⟨n', hn', hget⟩ := straightLine_shifting.knows_reaches hr _ hc
  cases hn.symm.trans hn'
  cases hsixteen.symm.trans hget
  exact ⟨hn, hat⟩

end Method

end ConstantFlow
