import ConstantFlow.Graph.Control
import ConstantFlow.Proofs.DivisionFree

namespace ConstantFlow

open Value

namespace BinaryOp

variable {op : BinaryOp} {v v' w w' : Value}

/-- The value of an operator that waits for its divisor. -/
def carefully (op : BinaryOp) (v w : Value) : Value :=
  if op.divides = true ∧ v = nac ∧ w = undef then undef else op.combine v w

/-- The value of an operator that does not look at the divisor of an unknown number. -/
def boldly (op : BinaryOp) (v w : Value) : Value :=
  if op.divides = true ∧ v = nac then nac else op.combine v w

theorem carefully_le (hv : v ≤ v') (hw : w ≤ w') : op.carefully v w ≤ op.carefully v' w' := by
  unfold carefully
  by_cases h : op.divides = true ∧ v = nac ∧ w = undef
  · rw [if_pos h]
    exact undef_le _
  rw [if_neg h]
  by_cases h' : op.divides = true ∧ v' = nac ∧ w' = undef
  · -- there is no divisor below either, so the dividend below is not unknown yet and gives no quotient
    obtain ⟨hd, -, rfl⟩ := h'
    obtain rfl := le_undef.1 hw
    have hne : v ≠ nac := fun hv ↦ h ⟨hd, hv, rfl⟩
    rcases combine_undef_right op v with he | ⟨-, hn⟩
    · rw [he]
      exact undef_le _
    · exact absurd hn hne
  · rw [if_neg h']
    exact combine_le hv hw fun hc ↦ h ⟨hc.1, hc.2.1, hc.2.2.1⟩

theorem boldly_le (hv : v ≤ v') (hw : w ≤ w') : op.boldly v w ≤ op.boldly v' w' := by
  unfold boldly
  by_cases h' : op.divides = true ∧ v' = nac
  · rw [if_pos h']
    exact le_nac _
  rw [if_neg h']
  have h : ¬ (op.divides = true ∧ v = nac) := by
    rintro ⟨hd, rfl⟩
    exact h' ⟨hd, nac_le.1 hv⟩
  rw [if_neg h]
  exact combine_le hv hw fun hc ↦ h ⟨hc.1, hc.2.1⟩

theorem boldly_eq (h : ¬ (op.divides = true ∧ v = nac ∧ w = const 0)) : op.boldly v w = op.combine v w := by
  unfold boldly
  split
  · next hd =>
    obtain ⟨hd, rfl⟩ := hd
    rcases combine_nac_left op w with he | ⟨-, -, hw⟩
    · exact he.symm
    · exact absurd ⟨hd, rfl, hw⟩ h
  · rfl

end BinaryOp

structure Division where
  dividend : Exp
  divisor : Exp

namespace Division

/-- An unknown number is divided before there is a divisor, and the quotient is unknown at once. -/
def Guessed (d : Division) (f : Fact) : Prop := d.dividend.value f = nac ∧ d.divisor.value f = undef

/-- An unknown number is divided by zero, and there is no quotient. -/
def ByZero (d : Division) (f : Fact) : Prop := d.dividend.value f = nac ∧ d.divisor.value f = const 0

end Division

namespace Exp

variable {f g : Fact} {e : Exp} {bold : Division → Bool}

def divisions : Exp → List Division
  | binary op a b => (if op.divides then [⟨a, b⟩] else []) ++ (a.divisions ++ b.divisions)
  | _ => []

def settle (bold : Division → Bool) (f : Fact) : Exp → Value
  | literal l => l.value
  | var x => f.get x
  | binary op a b =>
    if bold ⟨a, b⟩ then op.boldly (a.settle bold f) (b.settle bold f)
    else op.carefully (a.settle bold f) (b.settle bold f)
  | _ => nac

theorem settle_unopened (h : e.isOpaque = true) (bold : Division → Bool) (f : Fact) : e.settle bold f = nac := by
  cases e with
  | literal _ | var _ | binary _ _ _ => cases h
  | _ => rfl

theorem settle_le (bold : Division → Bool) (h : f ≤ g) (e : Exp) : e.settle bold f ≤ e.settle bold g := by
  induction e using induction_visited with
  | literal l => exact le_rfl
  | var x => exact h x
  | binary op a b iha ihb =>
    rw [settle, settle]
    split
    · exact BinaryOp.boldly_le iha ihb
    · exact BinaryOp.carefully_le iha ihb
  | unopened e he => rw [settle_unopened he, settle_unopened he]

/-- A bold division goes wrong over zero only, and a careful one only where there is no divisor yet. -/
theorem settle_eq_value (hbold : ∀ d ∈ e.divisions, bold d = true → ¬ d.ByZero f)
    (hcareful : ∀ d ∈ e.divisions, bold d = false → ¬ d.Guessed f) : e.settle bold f = e.value f := by
  induction e using induction_visited with
  | literal l => rfl
  | var x => rfl
  | binary op a b iha ihb =>
    simp only [divisions, List.mem_append] at hbold hcareful
    have ha := iha (fun d hd ↦ hbold d (.inr (.inl hd))) fun d hd ↦ hcareful d (.inr (.inl hd))
    have hb := ihb (fun d hd ↦ hbold d (.inr (.inr hd))) fun d hd ↦ hcareful d (.inr (.inr hd))
    have hmem (hd : op.divides = true) : (⟨a, b⟩ : Division) ∈ if op.divides then [⟨a, b⟩] else [] := by simp [hd]
    rw [settle, ha, hb, value]
    cases h : bold ⟨a, b⟩ with
    | true =>
      rw [if_pos rfl]
      exact BinaryOp.boldly_eq fun hz ↦ hbold _ (.inl (hmem hz.1)) h hz.2
    | false =>
      rw [if_neg Bool.false_ne_true, BinaryOp.carefully]
      exact if_neg fun hg ↦ hcareful _ (.inl (hmem hg.1)) h hg.2
  | unopened e he => rw [settle_unopened he, value_unopened he]

end Exp

namespace Stmt

variable {s : Stmt} {f : Fact} {bold : Division → Bool}

def settle (bold : Division → Bool) (s : Stmt) (f : Fact) : Fact :=
  match s.tracked? with
  | some (x, e) => f.set x (e.settle bold f)
  | none => f

theorem settle_monotone (bold : Division → Bool) (s : Stmt) : Monotone (s.settle bold) := by
  intro f g h
  unfold settle
  cases s.tracked? with
  | none => exact h
  | some d => exact Fact.set_le_set h (d.2.settle_le bold h) d.1

theorem settle_eq_effect (h : ∀ x e, s.tracked? = some (x, e) → e.settle bold f = e.value f) :
    s.settle bold f = s.effect f := by
  unfold settle effect
  cases hd : s.tracked? with
  | none => rfl
  | some d =>
    obtain ⟨x, e⟩ := d
    exact congrArg (f.set x) (h x e hd)

end Stmt

namespace Problem

variable {p : Problem} {runs : List Strategy} {strategy : Strategy} {v : Node p.method.size} {d : Division}

/-- Some visit of `v` in one of the runs starts from a fact of which `P` holds. -/
def Sees (p : Problem) (runs : List Strategy) (v : Node p.method.size) (P : Fact → Prop) : Prop :=
  ∃ strategy ∈ runs, ∃ s s', p.Reaches (p.start strategy) s ∧ p.Visits s v s' ∧ P (s'.before.get v)

/-- A division that is guessed at one visit turns out to be by zero at another, in the same run or not. -/
def Revokes (p : Problem) (runs : List Strategy) : Prop :=
  ∃ v x e, (p.method.stmtAt v).tracked? = some (x, e) ∧
    ∃ d ∈ e.divisions, p.Sees runs v d.Guessed ∧ p.Sees runs v d.ByZero

open Classical in
noncomputable def guesses (p : Problem) (runs : List Strategy) (v : Node p.method.size) (d : Division) : Bool :=
  decide (p.Sees runs v d.Guessed)

theorem guesses_iff : p.guesses runs v d = true ↔ p.Sees runs v d.Guessed := by
  classical exact decide_eq_true_iff

theorem follows_of_not_revokes (h : ¬ p.Revokes runs) (hs : strategy ∈ runs) :
    p.Follows (fun v ↦ (p.method.stmtAt v).settle (p.guesses runs v)) strategy := by
  intro s v s' hreach hv
  have hsees {P : Fact → Prop} (hP : P (p.merged s v)) : p.Sees runs v P := by
    refine ⟨strategy, hs, s, s', hreach, hv, ?_⟩
    rwa [hv.before, if_pos rfl]
  refine congrArg Fact.get (Stmt.settle_eq_effect fun x e hd ↦ Exp.settle_eq_value ?_ ?_).symm
  · intro d hmem hbold hz
    exact h ⟨v, x, e, hd, d, hmem, guesses_iff.1 hbold, hsees hz⟩
  · intro d _ hcareful hg
    rw [guesses_iff.2 (hsees hg)] at hcareful
    cases hcareful

theorem equations_of_follows {T : Node p.method.size → Fact → Fact} {c : Config} {sol : Solution p.method.size}
    (hp : ∀ v, (p.method.stmtAt v).IsProper) (hT : ∀ v, Monotone (T v)) (hf : p.Follows T c.strategy)
    (h : p.solve c = .ok sol) : p.Equations (sol.before p.direction).get (sol.after p.direction).get := by
  obtain ⟨hsol, -⟩ := least_of_follows hT hf h
  obtain ⟨s, -, hreg, hempty, rfl⟩ := solve_eq_ok h
  rw [Solution.before_ofState, Solution.after_ofState] at hsol ⊢
  exact (equations_iff hp).2
    ⟨hsol.boundary, hsol.inflow, fun v hv ↦ (hreg.settled v hv (by simp [hempty])).outflow⟩

/-- Two runs that return agree at every node, and leave a solution of the equations, unless one of them comes to a
division by zero of an unknown number whose quotient one of them has guessed. -/
theorem solve_agrees_unless_revoked (p : Problem) (hp : ∀ k, (p.method.stmt k).IsProper) (c c' : Config)
    (sol sol' : Solution p.method.size) (hr : ¬ p.Revokes [c.strategy, c'.strategy])
    (h : p.solve c = .ok sol) (h' : p.solve c' = .ok sol') :
    (∀ v, (sol.incoming.get v).agrees (sol'.incoming.get v) = true ∧
      (sol.outgoing.get v).agrees (sol'.outgoing.get v) = true) ∧
      p.Equations (sol.before p.direction).get (sol.after p.direction).get ∧
      p.Equations (sol'.before p.direction).get (sol'.after p.direction).get := by
  have hproper := Method.isProper_stmtAt hp
  have hT := fun v ↦ (p.method.stmtAt v).settle_monotone (p.guesses [c.strategy, c'.strategy] v)
  have hf : p.Follows _ c.strategy := follows_of_not_revokes hr (List.mem_cons_self ..)
  have hf' : p.Follows _ c'.strategy := follows_of_not_revokes hr (by simp)
  exact ⟨agrees_of_follows hT hf hf' h h', equations_of_follows hproper hT hf h,
    equations_of_follows hproper hT hf' h'⟩

end Problem

def Config.taking (strategy : Strategy) : Config := { Config.default with strategy := strategy }

/-- Divides by `d` in a loop that sets `d` at the end of its first round only. -/
def Method.lagging : Method :=
  ((((empty "lagging" [.int "n"]).push
    (.assign (.var (.int "q")) (.binary (.arithmetic .div) (.var (.int "n")) (.var (.int "d"))))).push
    (.assign (.var (.int "d")) (.literal (.int 2)))).push
    (.branch (.binary (.condition .gt) (.var (.int "n")) (.var (.int "q"))) 0)).push (.ret (some (.var (.int "q"))))

namespace Problem

theorem lagging_divisor_le {strategy : Strategy} {s : State Method.lagging.size}
    (h : (ofMethod .lagging).Reaches ((ofMethod .lagging).start strategy) s) (v : Node Method.lagging.size) :
    (s.before.get v).get (.int "d") ≤ const 2 := by
  let ceiling : Fact := .ofList [(.int "d", .const 2)]
  have heffect (v : Node 4) (f : Fact) (hf : f.get (.int "d") ≤ const 2) :
      ((Method.lagging.stmtAt v).effect f).get (.int "d") ≤ const 2 := by
    match v with
    | .entry | .exit | .stmt 2 | .stmt 3 => exact hf
    | .stmt 0 =>
      rw [Stmt.get_effect_tracked rfl, if_neg (by decide)]
      exact hf
    | .stmt 1 =>
      rw [Stmt.get_effect_tracked rfl, if_pos rfl]
      exact le_rfl
  have hc : (ofMethod .lagging).Ceiling strategy {.int "d"} (fun _ ↦ ceiling) fun _ ↦ ceiling := by
    refine ⟨?_, fun v _ u _ ↦ .refl _ _, fun s v s' _ _ hle ↦ ?_⟩
    · rintro x rfl
      exact undef_le _
    · rintro x rfl
      exact heffect v _ (hle _ rfl)
  exact (leOn_reaches hc h v).1 _ rfl

theorem not_revokes_lagging (runs : List Strategy) : ¬ (ofMethod .lagging).Revokes runs := by
  have hdivisor (v : Node 4) : ∀ x e, (Method.lagging.stmtAt v).tracked? = some (x, e) →
      ∀ d ∈ e.divisions, d.divisor = .var (.int "d") := by
    match v with
    | .entry | .exit | .stmt 2 | .stmt 3 => exact fun x e hd ↦ nomatch hd
    | .stmt 0 =>
      rintro x e ⟨⟩ d hmem
      obtain rfl := List.mem_singleton.1 hmem
      rfl
    | .stmt 1 => exact fun x e hd d hmem ↦ by cases hd; cases hmem
  rintro ⟨v, x, e, hd, d, hmem, -, strategy, -, s, s', hreach, hv, -, hz⟩
  have hle := lagging_divisor_le (hreach.tail ⟨v, hv⟩) v
  rw [hdivisor v x e hd d hmem] at hz
  exact absurd (eq_of_const_le (hz.ge.trans hle)) (by decide)

theorem lagging_agrees :
    (∀ k, (Method.lagging.stmt k).IsProper) ∧
      (ofMethod .lagging).Sees [.rpo] (.stmt (0 : Fin 4)) (Division.mk (.var (.int "n")) (.var (.int "d"))).Guessed ∧
      ¬ (ofMethod .lagging).Revokes [.fifo, .rpo] ∧ ∃ sol sol',
        (ofMethod .lagging).solve (.taking .fifo) = .ok sol ∧
        (ofMethod .lagging).solve (.taking .rpo) = .ok sol' ∧
        (∀ v, (sol.incoming.get v).agrees (sol'.incoming.get v) = true ∧
          (sol.outgoing.get v).agrees (sol'.outgoing.get v) = true) ∧
        (ofMethod .lagging).Equations sol.incoming.get sol.outgoing.get ∧
        (ofMethod .lagging).Equations sol'.incoming.get sol'.outgoing.get := by
  have hp : ∀ k, (Method.lagging.stmt k).IsProper := by decide
  have hguess : (ofMethod .lagging).Sees [.rpo] (.stmt (0 : Fin 4))
      (Division.mk (.var (.int "n")) (.var (.int "d"))).Guessed := by
    refine ⟨.rpo, List.mem_singleton_self _, _, _, .refl, ⟨_, rfl, rfl⟩, ?_⟩
    constructor <;> decide +kernel
  have hok (strategy) : ((ofMethod .lagging).solve (.taking strategy)).toOption.any (fun _ ↦ true) = true := by
    cases strategy <;> decide +kernel
  obtain ⟨sol, h, -⟩ := exists_solve (hok .fifo)
  obtain ⟨sol', h', -⟩ := exists_solve (hok .rpo)
  exact ⟨hp, hguess, not_revokes_lagging _, sol, sol', h, h',
    solve_agrees_unless_revoked (ofMethod .lagging) hp _ _ sol sol' (not_revokes_lagging _) h h'⟩

end Problem

def Method.dividing : Method :=
  (((((empty "dividing" [.int "n"]).push (.branch (.binary (.condition .eq) (.var (.int "n")) (.var (.int "n"))) 3)).push
    (.assign (.var (.int "q")) (.binary (.arithmetic .div) (.var (.int "n")) (.var (.int "d"))))).push
    (.ret (some (.var (.int "q"))))).push (.assign (.var (.int "d")) (.literal (.int 0)))).push (.goto 1)

namespace Problem

/-- The order of visits can make a difference, and the guess of the first visit then stays where it has flowed to,
although the node that it came from has taken it back. -/
theorem not_solve_agrees :
    (¬ ∀ (m : Method) (g : Graph m.size) (c c' : Config) (sol sol' : Solution m.size), m.graph = .ok g →
      (∀ k, (m.stmt k).IsProper) → c.strategy = .fifo → c'.strategy = .rpo →
      (⟨m, g, .forward, true⟩ : Problem).solve c = .ok sol →
      (⟨m, g, .forward, true⟩ : Problem).solve c' = .ok sol' →
      ∀ v, (sol.incoming.get v).agrees (sol'.incoming.get v) = true ∧
        (sol.outgoing.get v).agrees (sol'.outgoing.get v) = true) ∧
      ∃ sol, (ofMethod .dividing).solve (.taking .fifo) = .ok sol ∧
        (ofMethod .dividing).sources (.stmt (2 : Fin 5)) = [.stmt (1 : Fin 5)] ∧
        (sol.incoming.get (.stmt (2 : Fin 5))).get (.int "q") = nac ∧
        (sol.outgoing.get (.stmt (1 : Fin 5))).get (.int "q") = undef ∧
        ¬ (ofMethod .dividing).Equations sol.incoming.get sol.outgoing.get := by
  have hfifo : ((ofMethod .dividing).solve (.taking .fifo)).toOption.any (fun sol ↦
      (sol.incoming.get (.stmt (2 : Fin 5))).get (.int "q") = nac ∧
        (sol.outgoing.get (.stmt (1 : Fin 5))).get (.int "q") = undef) = true := by decide +kernel
  have hrpo : ((ofMethod .dividing).solve (.taking .rpo)).toOption.any (fun sol ↦
      (sol.incoming.get (.stmt (2 : Fin 5))).get (.int "q") = undef) = true := by decide +kernel
  obtain ⟨sol, h, hsol⟩ := exists_solve hfifo
  obtain ⟨sol', h', hundef⟩ := exists_solve hrpo
  obtain ⟨hnac, hout⟩ := of_decide_eq_true hsol
  refine ⟨fun hall ↦ ?_, sol, h, rfl, hnac, hout, fun heq ↦ ?_⟩
  · have hgraph : Method.dividing.graph = .ok (ofMethod .dividing).graph := rfl
    have hproper : ∀ k, (Method.dividing.stmt k).IsProper := by decide
    have hagree := hall _ _ _ _ sol sol' hgraph hproper rfl rfl h h' (.stmt (2 : Fin 5))
    have hget := congrFun (Fact.agrees_iff.1 hagree.1) (.int "q")
    rw [hnac, of_decide_eq_true hundef] at hget
    cases hget
  · have hin := heq.inflow (.stmt (2 : Fin 5)) nofun (.int "q")
    rw [hnac, show (ofMethod .dividing).sources (.stmt (2 : Fin 5)) = [.stmt (1 : Fin 5)] from rfl] at hin
    cases hin.trans (congrArg (fun v ↦ Value.meets [v]) hout)

end Problem

end ConstantFlow
