import ConstantFlow.Proofs.Execution
import ConstantFlow.Proofs.LeastSolution
import ConstantFlow.Proofs.Variables
import Mathlib.Data.Set.Insert

namespace ConstantFlow

variable {S : Set Var} {f g : Fact} {x : Var}

namespace Exp

variable {e : Exp}

def reads : Exp → List Var
  | var x => [x]
  | binary _ a b => a.reads ++ b.reads
  | _ => []

/-- Whether the value can be told from the variables in `S`, and cannot fall. -/
structure Confined (S : Set Var) (e : Exp) : Prop where
  reads : ∀ x ∈ e.reads, x ∈ S ∨ x.isTracked = false
  divides : e.hasDivision = false

theorem Confined.operands {op : BinaryOp} {a b : Exp} (h : (binary op a b).Confined S) :
    op.divides = false ∧ a.Confined S ∧ b.Confined S := by
  obtain ⟨hr, hd⟩ := h
  simp only [hasDivision, Bool.or_eq_false_iff] at hd
  refine ⟨hd.1.1, ⟨fun x hx ↦ hr x ?_, hd.1.2⟩, ⟨fun x hx ↦ hr x ?_, hd.2⟩⟩
  · exact List.mem_append_left _ hx
  · exact List.mem_append_right _ hx

theorem value_leOn (he : e.Confined S) (hf : ∀ x ∈ f.keys, x.isTracked = true) (h : f.LeOn S g) :
    e.value f ≤ e.value g := by
  induction e using induction_visited with
  | literal l => exact le_rfl
  | var x =>
    change f.get x ≤ g.get x
    rcases he.reads x (List.mem_singleton_self x) with hx | hx
    · exact h x hx
    · have hk : x ∉ f.keys := fun hk ↦ by simp [hf x hk] at hx
      rw [Fact.get_eq_undef hk]
      exact Value.undef_le _
  | binary op a b iha ihb =>
    obtain ⟨hop, ha, hb⟩ := he.operands
    refine BinaryOp.combine_le (iha ha) (ihb hb) ?_
    intro hc
    rw [hc.1] at hop
    cases hop
  | unopened e ho => rw [value_unopened ho, value_unopened ho]

end Exp

abbrev Method.restate (m : Method) (name : String) (stmts : Vector Stmt m.size) : Method :=
  { m with name := name, stmts := stmts }

inductive Flow
  | next
  | jump (target : Int)
  | fork (target : Int)
  | leave
  deriving DecidableEq

namespace Stmt

variable {s s' : Stmt}

def flow : Stmt → Flow
  | goto target => .jump target
  | branch _ target => .fork target
  | ret _ => .leave
  | _ => .next

/-- Statements that move control alike and give the variables in `S` the same definitions, if any. -/
structure AlikeOn (S : Set Var) (s s' : Stmt) : Prop where
  flow : s.flow = s'.flow
  defines : ∀ x ∈ S, ∀ e, s.tracked? = some (x, e) ↔ s'.tracked? = some (x, e)

theorem AlikeOn.refl (S : Set Var) (s : Stmt) : s.AlikeOn S s := ⟨rfl, fun _ _ _ ↦ Iff.rfl⟩

theorem AlikeOn.symm (h : s.AlikeOn S s') : s'.AlikeOn S s := ⟨h.flow.symm, fun x hx e ↦ (h.defines x hx e).symm⟩

def Closes (S : Set Var) (s : Stmt) : Prop := ∀ x ∈ S, ∀ e, s.tracked? = some (x, e) → e.Confined S

theorem AlikeOn.closes (h : s.AlikeOn S s') (hs : s.Closes S) : s'.Closes S :=
  fun x hx e hd ↦ hs x hx e ((h.defines x hx e).2 hd)

theorem effect_leOn (h : s.AlikeOn S s') (hs : s.Closes S) (hf : ∀ x ∈ f.keys, x.isTracked = true)
    (hle : f.LeOn S g) : (s.effect f).LeOn S (s'.effect g) := by
  intro x hx
  by_cases hd : ∃ e, s.tracked? = some (x, e)
  · obtain ⟨e, hd⟩ := hd
    rw [get_effect_tracked hd, get_effect_tracked ((h.defines x hx e).1 hd), if_pos rfl, if_pos rfl]
    exact Exp.value_leOn (hs x hx e hd) hf hle
  · rw [not_exists] at hd
    rw [get_effect_of_untouched hd, get_effect_of_untouched fun e he ↦ hd e ((h.defines x hx e).2 he)]
    exact hle x hx

end Stmt

namespace Problem

/-- Where a run ends is out of reach for every other run, on variables that both define alike. -/
theorem ceiling_of_settled {m : Method} {name : String} {stmts : Vector Stmt m.size} {g : Graph m.size}
    {d : Direction} {a b : Bool} {s : State m.size}
    (halike : ∀ v, (m.stmtAt v).AlikeOn S ((m.restate name stmts).stmtAt v))
    (hclosed : ∀ v, (m.stmtAt v).Closes S) (hs : Regular ⟨m, g, d, a⟩ s) (hempty : s.worklist.queue = [])
    (strategy : Strategy) :
    Ceiling ⟨m.restate name stmts, g, d, b⟩ strategy S s.before.get s.after.get := by
  have hset (v) (hv : v ≠ d.boundary) := hs.settled v hv (by simp [hempty])
  refine ⟨?_, fun v hv u hu ↦ .of_le ((hset v hv).inflow u hu), fun t v t' hreach hv hle ↦ ?_⟩
  · have hafter : s.after.get d.boundary = boundaryFact m.params := hs.after_boundary
    rw [boundary, hafter]
    exact .refl S _
  · have hscope := (scoped_reaches hreach).merged v
    have hne := ((regular_start _ strategy).reaches hreach).ne_boundary hv
    -- the visited fact has tracked variables only, so what is read outside `S` is undefined there
    have htracked := fun x hx ↦ (Method.mem_trackedVars.1 (hscope x hx)).2
    exact (Stmt.effect_leOn (halike v).symm ((halike v).closes (hclosed v)) htracked hle).trans
      (.of_le (Fact.le_of_get_eq (hset v hne).outflow.symm))

theorem leOn_solve {m : Method} {name : String} {stmts : Vector Stmt m.size} {g : Graph m.size} {a b : Bool}
    {c c' : Config} {sol sol' : Solution m.size}
    (halike : ∀ v, (m.stmtAt v).AlikeOn S ((m.restate name stmts).stmtAt v))
    (hclosed : ∀ v, (m.stmtAt v).Closes S) (h : solve ⟨m, g, .forward, a⟩ c = .ok sol)
    (h' : solve ⟨m.restate name stmts, g, .forward, b⟩ c' = .ok sol') (v : Node m.size) :
    (sol'.incoming.get v).LeOn S (sol.incoming.get v) ∧ (sol'.outgoing.get v).LeOn S (sol.outgoing.get v) := by
  obtain ⟨s, -, hreg, hempty, rfl⟩ := solve_eq_ok h
  obtain ⟨s', hreach, -, -, rfl⟩ := solve_eq_ok h'
  exact leOn_reaches (ceiling_of_settled halike hclosed hreg hempty c'.strategy) hreach v

end Problem

namespace Method

variable {m m' : Method}

def flowTargets? (m : Method) (position : Nat) : Flow → Option (List (Node m.size))
  | .next => some [m.next position]
  | .jump target => (m.at? target).map fun k ↦ [.stmt k]
  | .fork target => (m.at? target).map fun k ↦ [.stmt k, m.next position]
  | .leave => some [.exit]

theorem toOption_follow (m : Method) (position : Nat) (s : Stmt) :
    (m.follow position s).toOption = m.flowTargets? position s.flow := by
  cases s with
  | goto target =>
    simp only [follow, jump, Stmt.flow, flowTargets?]
    cases m.at? target <;> rfl
  | branch condition target =>
    simp only [follow, jump, Stmt.flow, flowTargets?]
    cases m.at? target <;> rfl
  | _ => rfl

theorem toOption_edgesFrom_cons (m : Method) (position : Nat) (k : Fin m.size) (rest : List (Fin m.size)) :
    (m.edgesFrom position (k :: rest)).toOption = (m.flowTargets? position (m.stmt k).flow).bind fun targets ↦
      (m.edgesFrom (position + 1) rest).toOption.map fun later ↦ targets.map (fun v ↦ (.stmt k, v)) ++ later := by
  rw [← toOption_follow, edgesFrom]
  cases m.follow position (m.stmt k) with
  | error e => rfl
  | ok targets => cases m.edgesFrom (position + 1) rest <;> rfl

theorem toOption_graph_nil (h : m.code = []) : m.graph.toOption = some (.ofEdges [(.entry, .exit)]) := by
  unfold graph
  rw [h]
  rfl

theorem toOption_graph_cons {k : Fin m.size} {rest : List (Fin m.size)} (h : m.code = k :: rest) :
    m.graph.toOption =
      (m.edgesFrom 0 (k :: rest)).toOption.map fun edges ↦ .ofEdges ((.entry, .stmt k) :: edges) := by
  unfold graph
  rw [h]
  dsimp only
  cases m.edgesFrom 0 (k :: rest) <;> rfl

section Restated

variable {name : String} {stmts : Vector Stmt m.size}

theorem flowTargets?_restated (position : Nat) (f : Flow) :
    (m.restate name stmts).flowTargets? position f = m.flowTargets? position f := by
  have hnext : (m.restate name stmts).next position = m.next position := by
    unfold next
    dsimp only
    cases m.code[position + 1]? <;> rfl
  cases f with
  | next => exact congrArg (fun v ↦ some [v]) hnext
  | jump target => rfl
  | fork target => exact congrArg (fun v ↦ (m.at? target).map fun k ↦ [.stmt k, v]) hnext
  | leave => rfl

theorem toOption_edgesFrom_restated (h : ∀ k, (m.stmt k).flow = ((m.restate name stmts).stmt k).flow)
    (position : Nat) (l : List (Fin m.size)) :
    ((m.restate name stmts).edgesFrom position l).toOption = (m.edgesFrom position l).toOption := by
  induction l generalizing position with
  | nil => rfl
  | cons k rest ih => rw [toOption_edgesFrom_cons, toOption_edgesFrom_cons, ih, flowTargets?_restated, ← h k]

theorem toOption_graph_restated (h : ∀ k, (m.stmt k).flow = ((m.restate name stmts).stmt k).flow) :
    (m.restate name stmts).graph.toOption = m.graph.toOption := by
  by_cases hc : m.code = []
  · rw [toOption_graph_nil hc, toOption_graph_nil (m := m.restate name stmts) hc]
  · obtain ⟨k, rest, hc⟩ := List.exists_cons_of_ne_nil hc
    rw [toOption_graph_cons hc, toOption_graph_cons (m := m.restate name stmts) hc,
      toOption_edgesFrom_restated h]

theorem site_restated (position : Nat) : (m.restate name stmts).site position = m.site position := by
  unfold site
  dsimp only
  cases m.code[position]? <;> rfl

end Restated

structure AlikeOn (S : Set Var) (m m' : Method) : Prop where
  params : m.params = m'.params
  code : m.code.map Fin.val = m'.code.map Fin.val
  stmts : ∀ (i : Nat) (k : Fin m.size) (k' : Fin m'.size), m.code[i]? = some k → m'.code[i]? = some k' →
    (m.stmt k).AlikeOn S (m'.stmt k')

theorem AlikeOn.exists_restated (h : m.AlikeOn S m') :
    ∃ (name : String) (stmts : Vector Stmt m.size), m' = m.restate name stmts := by
  obtain ⟨name, params, size, stmts, code, numbered⟩ := m
  obtain ⟨name', params', size', stmts', code', numbered'⟩ := m'
  obtain ⟨rfl, hcode, -⟩ := h
  dsimp only at hcode
  obtain rfl : size = size' := by
    have hrange : List.range size = List.range size' := by rw [← numbered, ← numbered', hcode]
    simpa using congrArg List.length hrange
  obtain rfl : code = code' := List.map_injective_iff.2 (fun _ _ ↦ Fin.ext) hcode
  exact ⟨name', stmts', rfl⟩

theorem AlikeOn.stmtAt {name : String} {stmts : Vector Stmt m.size}
    (h : m.AlikeOn S (m.restate name stmts)) (v : Node m.size) :
    (m.stmtAt v).AlikeOn S ((m.restate name stmts).stmtAt v) := by
  cases v with
  | entry => exact .refl S _
  | exit => exact .refl S _
  | stmt k =>
    obtain ⟨i, hi⟩ := List.mem_iff_getElem?.1 (m.mem_code k)
    exact h.stmts i k k hi hi

def Closes (m : Method) (S : Set Var) : Prop := ∀ k, (m.stmt k).Closes S

theorem Closes.stmtAt (h : m.Closes S) (v : Node m.size) : (m.stmtAt v).Closes S := by
  intro x hx e hd
  cases v with
  | entry => cases hd
  | exit => cases hd
  | stmt k => exact h k x hx e hd

/-- Statements that define none of the variables in `S` make no difference to what becomes known of these, at
entry or at any position, the end included. -/
theorem solve_agrees_on (m m' : Method) (S : Set Var) (hS : m.Closes S) (h : m.AlikeOn S m')
    (g : Graph m.size) (g' : Graph m'.size) (hg : m.graph = .ok g) (hg' : m'.graph = .ok g') (a b : Bool)
    (c c' : Config) (sol : Solution m.size) (sol' : Solution m'.size)
    (hsol : (⟨m, g, .forward, a⟩ : Problem).solve c = .ok sol)
    (hsol' : (⟨m', g', .forward, b⟩ : Problem).solve c' = .ok sol') :
    ∀ x ∈ S, (sol.incoming.get .entry).get x = (sol'.incoming.get .entry).get x ∧
      (sol.outgoing.get .entry).get x = (sol'.outgoing.get .entry).get x ∧
      ∀ i, (sol.incoming.get (m.site i)).get x = (sol'.incoming.get (m'.site i)).get x ∧
        (sol.outgoing.get (m.site i)).get x = (sol'.outgoing.get (m'.site i)).get x := by
  obtain ⟨name, stmts, rfl⟩ := h.exists_restated
  have halike := h.stmtAt
  have hclosed := hS.stmtAt
  obtain rfl : g = g' := by
    have hgraph : (m.restate name stmts).graph.toOption = m.graph.toOption :=
      toOption_graph_restated fun k ↦ (halike (.stmt k)).flow
    rw [hg, hg'] at hgraph
    exact (Option.some.inj hgraph).symm
  -- on `S` each of the two runs stays below what the other returns
  have hle := Problem.leOn_solve halike hclosed hsol hsol'
  have hge (v : Node m.size) :
      (sol.incoming.get v).LeOn S (sol'.incoming.get v) ∧ (sol.outgoing.get v).LeOn S (sol'.outgoing.get v) :=
    Problem.leOn_solve (m := m.restate name stmts) (fun v ↦ (halike v).symm)
      (fun v ↦ (halike v).closes (hclosed v)) hsol' hsol v
  have hagree (v : Node m.size) (x : Var) (hx : x ∈ S) :
      (sol.incoming.get v).get x = (sol'.incoming.get v).get x ∧
        (sol.outgoing.get v).get x = (sol'.outgoing.get v).get x :=
    ⟨le_antisymm ((hge v).1 x hx) ((hle v).1 x hx), le_antisymm ((hge v).2 x hx) ((hle v).2 x hx)⟩
  intro x hx
  refine ⟨(hagree .entry x hx).1, (hagree .entry x hx).2, fun i ↦ ?_⟩
  have hsite : (m.restate name stmts).site i = m.site i := site_restated i
  rw [hsite]
  exact hagree (m.site i) x hx

/-- A loop that keeps the bits of `i` it needs; one statement in it is left open. -/
def masking (s : Stmt) : Method :=
  (((((empty "masking" [.int "n"]).push (.assign (.var (.int "i")) (.literal (.int 8)))).push s).push
    (.assign (.var (.int "i")) (.binary (.bitwise .and) (.var (.int "i")) (.literal (.int 12))))).push
    (.branch (.binary (.condition .lt) (.var (.int "n")) (.var (.int "i"))) 1)).push (.ret (some (.var (.int "i"))))

theorem masking_closes {s : Stmt} (h : s.Closes {.int "i"}) : (masking s).Closes {.int "i"} := by
  intro (k : Fin 5)
  match k with
  | 0 => rintro x - e ⟨⟩; exact ⟨nofun, rfl⟩
  | 1 => exact h
  | 2 => rintro x - e ⟨⟩; exact ⟨fun y hy ↦ .inl (List.mem_singleton.1 hy), rfl⟩
  | 3 => rintro x - e ⟨⟩
  | 4 => rintro x - e ⟨⟩

theorem masking_alikeOn {s s' : Stmt} (h : s.AlikeOn S s') : (masking s).AlikeOn S (masking s') := by
  have hstmts : ∀ k : Fin 5, ((masking s).stmt k).AlikeOn S ((masking s').stmt k) := by
    intro k
    match k with
    | 1 => exact h
    | 0 | 2 | 3 | 4 => exact .refl S _
  refine ⟨rfl, rfl, fun i k k' hk hk' ↦ ?_⟩
  obtain rfl : k = k' := Option.some.inj (hk.symm.trans hk')
  exact hstmts k

def dividingByMask : Stmt :=
  .assign (.var (.int "q")) (.binary (.arithmetic .div) (.var (.int "n")) (.var (.int "i")))

theorem nop_alikeOn_dividingByMask : (Stmt.nop "nop").AlikeOn {.int "i"} dividingByMask := by
  refine ⟨rfl, fun x hx e ↦ ⟨nofun, fun hd ↦ ?_⟩⟩
  have hq : dividingByMask.tracked?.map Prod.fst = some (.int "q") := rfl
  rw [hd, Set.mem_singleton_iff.1 hx] at hq
  have hname : "i" = "q" := congrArg Var.name (Option.some.inj hq)
  exact absurd hname (by decide)

/-- With a division by `i` in the loop the visits are others, but what is known of `i` is the same. -/
theorem masking_agrees_on :
    (masking (.nop "nop")).Closes {.int "i"} ∧
      (masking (.nop "nop")).AlikeOn {.int "i"} (masking dividingByMask) ∧ ∃ g g' sol sol',
        (masking (.nop "nop")).graph = .ok g ∧ (masking dividingByMask).graph = .ok g' ∧
        (⟨masking (.nop "nop"), g, .forward, true⟩ : Problem).solve .default = .ok sol ∧
        (⟨masking dividingByMask, g', .forward, true⟩ : Problem).solve .default = .ok sol' ∧
        (sol.incoming.get .exit).get (.int "i") = .const 8 ∧ (sol'.incoming.get .exit).get (.int "i") = .const 8 := by
  have hcloses : (masking (.nop "nop")).Closes {.int "i"} := masking_closes fun _ _ _ hd ↦ nomatch hd
  have halike := masking_alikeOn nop_alikeOn_dividingByMask
  have hknown : ((Problem.ofMethod (masking (.nop "nop"))).solve .default).toOption.any (fun sol ↦
      (sol.incoming.get .exit).get (.int "i") = .const 8) = true := by decide +kernel
  have hreturns : ((Problem.ofMethod (masking dividingByMask)).solve .default).toOption.any (fun _ ↦ true) = true := by
    decide +kernel
  obtain ⟨sol, h, hi⟩ := Problem.exists_solve hknown
  obtain ⟨sol', h', -⟩ := Problem.exists_solve hreturns
  have hi : (sol.incoming.get .exit).get (.int "i") = .const 8 := of_decide_eq_true hi
  obtain ⟨-, -, hsame⟩ := solve_agrees_on _ _ {.int "i"} hcloses halike _ _ rfl rfl true true .default .default
    sol sol' h h' (.int "i") rfl
  have hexit := (hsame 5).1
  exact ⟨hcloses, halike, _, _, sol, sol', rfl, rfl, h, h', hi, hexit.symm.trans hi⟩

end Method

end ConstantFlow
