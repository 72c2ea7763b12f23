import ConstantFlow.Proofs.Execution
import ConstantFlow.Proofs.Texts
import Mathlib.Data.List.FinRange
import Mathlib.Data.List.Induction
import Mathlib.Data.List.Nodup

namespace ConstantFlow

theorem eraseDups_map {α β : Type} [DecidableEq α] [DecidableEq β] {f : α → β} (hf : Function.Injective f)
    (l : List α) : (l.map f).eraseDups = l.eraseDups.map f := by
  induction l using List.reverseRecOn with
  | nil => rfl
  | append_singleton l a ih =>
    have hmem : f a ∈ l.map f ↔ a ∈ l := List.mem_map_of_injective hf
    rw [List.map_append, List.map_singleton, eraseDups_concat, eraseDups_concat, ih, if_congr hmem rfl rfl]
    split
    · rfl
    · rw [List.map_append, List.map_singleton]

namespace Graph

variable {n : Nat}

theorem mem_addEdge {g : Graph n} {u v : Node n} {e : Node n × Node n} :
    e ∈ (g.addEdge u v).edges ↔ e ∈ g.edges ∨ e = (u, v) := by
  unfold addEdge
  split
  · next h => exact ⟨.inl, fun he ↦ he.elim id fun he ↦ he ▸ h⟩
  · simp

theorem mem_ofEdges {l : List (Node n × Node n)} {e : Node n × Node n} :
    e ∈ (ofEdges l).edges ↔ e ∈ l := by
  have h (g : Graph n) : e ∈ (l.foldl (fun g e ↦ g.addEdge e.1 e.2) g).edges ↔ e ∈ g.edges ∨ e ∈ l := by
    induction l generalizing g with
    | nil => simp
    | cons a l ih => rw [List.foldl_cons, ih, mem_addEdge, List.mem_cons, or_assoc]
  rw [ofEdges, h empty]
  exact or_iff_right List.not_mem_nil

theorem nodup_successors (g : Graph n) (v : Node n) : (g.successors v).Nodup := by
  refine g.nodup.filterMap fun e e' w he he' ↦ ?_
  obtain ⟨hv, hw⟩ := Option.ite_none_right_eq_some.1 he
  obtain ⟨hv', hw'⟩ := Option.ite_none_right_eq_some.1 he'
  exact Prod.ext (hv.trans hv'.symm) (Option.some.inj (hw.trans hw'.symm))

theorem nodup_predecessors (g : Graph n) (v : Node n) : (g.predecessors v).Nodup := by
  refine g.nodup.filterMap fun e e' w he he' ↦ ?_
  obtain ⟨hv, hw⟩ := Option.ite_none_right_eq_some.1 he
  obtain ⟨hv', hw'⟩ := Option.ite_none_right_eq_some.1 he'
  exact Prod.ext (Option.some.inj (hw.trans hw'.symm)) (hv.trans hv'.symm)

end Graph

namespace Method

variable {m : Method} {t : Int}

def HasPosition (m : Method) (t : Int) : Prop := 0 ≤ t ∧ t < m.code.length

/-- Where control may go: from the entry to the first position, and from each position on. -/
inductive Flows (m : Method) : Node m.size → Node m.size → Prop
  | enter : Flows m .entry (m.site 0)
  | step {i j : Nat} {k : Fin m.size} : m.code[i]? = some k → m.Goes i (m.stmt k) j → Flows m (.stmt k) (m.site j)

/-- The first jump in a piece of code that leads to no position of the method. -/
def FirstDangling (m : Method) (l : List (Fin m.size)) (e : DanglingJump) : Prop :=
  ∃ (d : Nat) (k : Fin m.size), l[d]? = some k ∧ e.origin = m.stmt k ∧ (m.stmt k).target? = some e.target ∧
    ¬ m.HasPosition e.target ∧ ∀ d' < d, ∀ k', l[d']? = some k' → ∀ t ∈ (m.stmt k').target?, m.HasPosition t

theorem jump_eq {j : Nat} (h : j < m.code.length) (s : Stmt) : m.jump s j = .ok (m.site j) := by
  have hn : ¬ (j : Int) < 0 := by omega
  have hj : m.code[j]? = some m.code[j] := List.getElem?_eq_getElem h
  rw [jump, at?, if_neg hn, Int.toNat_natCast, hj, site_eq hj]

theorem exists_jump (h : m.HasPosition t) (s : Stmt) : ∃ j : Nat, t = j ∧ m.jump s t = .ok (m.site j) := by
  obtain ⟨h₀, h₁⟩ := h
  refine ⟨t.toNat, by omega, ?_⟩
  rw [← jump_eq (show t.toNat < m.code.length by omega) s, Int.toNat_of_nonneg h₀]

theorem jump_of_not_hasPosition (h : ¬ m.HasPosition t) (s : Stmt) : m.jump s t = .error ⟨s, t⟩ := by
  have hat : m.at? t = none := by
    unfold HasPosition at h
    unfold at?
    split
    · rfl
    · exact List.getElem?_eq_none (by omega)
  rw [jump, hat]

theorem follow_cases (m : Method) (i : Nat) (s : Stmt) :
    (∃ targets, m.follow i s = .ok targets ∧ (∀ t ∈ s.target?, m.HasPosition t) ∧
      ∀ v, v ∈ targets ↔ ∃ j, m.Goes i s j ∧ v = m.site j) ∨
    ∃ t, m.follow i s = .error ⟨s, t⟩ ∧ s.target? = some t ∧ ¬ m.HasPosition t := by
  cases s with
  | goto t =>
    by_cases ht : m.HasPosition t
    · obtain ⟨j, rfl, hj⟩ := exists_jump ht (.goto t)
      refine .inl ⟨[m.site j], by rw [follow, hj]; rfl, by simpa [Stmt.target?] using ht, fun v ↦ ?_⟩
      simp only [Goes, Int.natCast_inj, List.mem_singleton, exists_eq_left']
    · exact .inr ⟨t, by rw [follow, jump_of_not_hasPosition ht]; rfl, rfl, ht⟩
  | branch e t =>
    by_cases ht : m.HasPosition t
    · obtain ⟨j, rfl, hj⟩ := exists_jump ht (.branch e t)
      refine .inl ⟨[m.site j, m.site (i + 1)], by rw [follow, hj]; rfl, by simpa [Stmt.target?] using ht, fun v ↦ ?_⟩
      simp only [Goes, Int.natCast_inj, List.mem_pair, or_and_right, exists_or, exists_eq_left, exists_eq_left']
    · exact .inr ⟨t, by rw [follow, jump_of_not_hasPosition ht]; rfl, rfl, ht⟩
  | ret e =>
    refine .inl ⟨[.exit], rfl, by rintro t ⟨⟩, fun v ↦ ?_⟩
    simp [Goes, site_length]
  | _ =>
    refine .inl ⟨[m.site (i + 1)], rfl, by rintro t ⟨⟩, fun v ↦ ?_⟩
    simp [Goes]

theorem FirstDangling.cons {k : Fin m.size} {l : List (Fin m.size)} {e : DanglingJump}
    (hk : ∀ t ∈ (m.stmt k).target?, m.HasPosition t) (h : m.FirstDangling l e) : m.FirstDangling (k :: l) e := by
  obtain ⟨d, k', hd, horigin, htarget, hout, hfirst⟩ := h
  refine ⟨d + 1, k', hd, horigin, htarget, hout, fun d' hlt k'' hd' ↦ ?_⟩
  cases d' with
  | zero =>
    cases hd'
    exact hk
  | succ d' => exact hfirst d' (Nat.lt_of_succ_lt_succ hlt) k'' hd'

theorem edgesFrom_cases (m : Method) (i : Nat) (l : List (Fin m.size)) :
    (∃ edges, m.edgesFrom i l = .ok edges ∧ (∀ k ∈ l, ∀ t ∈ (m.stmt k).target?, m.HasPosition t) ∧
      ∀ u v, (u, v) ∈ edges ↔
        ∃ (d : Nat) (k : Fin m.size) (j : Nat), l[d]? = some k ∧ m.Goes (i + d) (m.stmt k) j ∧
          u = .stmt k ∧ v = m.site j) ∨
    ∃ e, m.edgesFrom i l = .error e ∧ m.FirstDangling l e := by
  induction l generalizing i with
  | nil => exact .inl ⟨[], rfl, nofun, fun u v ↦ ⟨nofun, fun ⟨_, _, _, h, _⟩ ↦ nomatch h⟩⟩
  | cons k rest ih =>
    obtain ⟨targets, hfollow, hk, htargets⟩ | ⟨t, hfollow, htarget, hout⟩ := m.follow_cases i (m.stmt k)
    · obtain ⟨later, hlater, hrest, hedges⟩ | ⟨e, hlater, he⟩ := ih (i + 1)
      · refine .inl ⟨targets.map (fun v ↦ (.stmt k, v)) ++ later, by rw [edgesFrom, hfollow, hlater]; rfl, ?_, ?_⟩
        · exact List.forall_mem_cons.2 ⟨hk, hrest⟩
        · intro u v
          rw [List.mem_append, hedges, List.mem_map]
          constructor
          · rintro (⟨w, hw, he⟩ | ⟨d, k', j, hd, hg, hu, hv⟩)
            · cases he
              obtain ⟨j, hg, hv⟩ := (htargets v).1 hw
              exact ⟨0, k, j, rfl, hg, rfl, hv⟩
            · exact ⟨d + 1, k', j, hd, Nat.add_right_comm i 1 d ▸ hg, hu, hv⟩
          · rintro ⟨d, k', j, hd, hg, rfl, rfl⟩
            cases d with
            | zero =>
              cases hd
              exact .inl ⟨m.site j, (htargets _).2 ⟨j, hg, rfl⟩, rfl⟩
            | succ d => exact .inr ⟨d, k', j, hd, Nat.add_right_comm i 1 d ▸ hg, rfl, rfl⟩
      · exact .inr ⟨e, by rw [edgesFrom, hfollow, hlater]; rfl, he.cons hk⟩
    · exact .inr ⟨⟨m.stmt k, t⟩, by rw [edgesFrom, hfollow]; rfl, 0, k, rfl, rfl, htarget, hout, nofun⟩

theorem JumpsInRange.not_firstDangling (hm : m.JumpsInRange) {l : List (Fin m.size)} {e : DanglingJump} :
    ¬ m.FirstDangling l e :=
  fun ⟨_, k, _, _, htarget, hout, _⟩ ↦ hout (hm k _ htarget)

/-- A method has a graph with the edges that its control takes, or its first dangling jump keeps it from one. -/
theorem graph_cases (m : Method) :
    (∃ g, m.graph = .ok g ∧ m.JumpsInRange ∧ ∀ u v, (u, v) ∈ g.edges ↔ m.Flows u v) ∨
    ∃ e, m.graph = .error e ∧ m.FirstDangling m.code e := by
  have hflows (u v) : m.Flows u v ↔ (u = .entry ∧ v = m.site 0) ∨
      ∃ (d : Nat) (k : Fin m.size) (j : Nat), m.code[d]? = some k ∧ m.Goes (0 + d) (m.stmt k) j ∧
        u = .stmt k ∧ v = m.site j := by
    constructor
    · rintro (_ | @⟨i, j, k, hk, hg⟩)
      · exact .inl ⟨rfl, rfl⟩
      · exact .inr ⟨i, k, j, hk, by rwa [Nat.zero_add], rfl, rfl⟩
    · rintro (⟨rfl, rfl⟩ | ⟨d, k, j, hk, hg, rfl, rfl⟩)
      · exact .enter
      · exact .step hk (by rwa [Nat.zero_add] at hg)
  unfold graph
  cases hc : m.code with
  | nil =>
    have hsite : m.site 0 = .exit := by rw [site, hc]; rfl
    have hnone (k : Fin m.size) : k ∉ m.code := hc ▸ List.not_mem_nil
    refine .inl ⟨_, rfl, fun k ↦ absurd (m.mem_code k) (hnone k), fun u v ↦ ?_⟩
    simp [Graph.mem_ofEdges, hflows, hc, hsite]
  | cons k rest =>
    have hsite : m.site 0 = .stmt k := site_eq (by rw [hc]; rfl)
    obtain ⟨edges, he, hin, hedges⟩ | ⟨e, he, hfirst⟩ := m.edgesFrom_cases 0 (k :: rest)
    · refine .inl ⟨.ofEdges ((.entry, .stmt k) :: edges), by dsimp only; rw [he]; rfl, ?_, fun u v ↦ ?_⟩
      · exact fun k' ↦ hin k' (hc ▸ m.mem_code k')
      · rw [Graph.mem_ofEdges, List.mem_cons, hedges, hflows, hc, hsite, Prod.mk.injEq]
    · exact .inr ⟨e, by dsimp only; rw [he]; rfl, hfirst⟩

theorem exists_goes (hm : m.JumpsInRange) (i : Nat) (k : Fin m.size) : ∃ j, m.Goes i (m.stmt k) j := by
  have hrange := hm k
  generalize m.stmt k = s at hrange
  cases s with
  | goto t => exact ⟨t.toNat, (Int.toNat_of_nonneg (hrange t rfl).1).symm⟩
  | branch e t => exact ⟨i + 1, .inr rfl⟩
  | ret e => exact ⟨m.code.length, rfl⟩
  | _ => exact ⟨i + 1, rfl⟩

theorem Flows.target_ne_entry {u v : Node m.size} (h : m.Flows u v) : v ≠ .entry := by
  cases h with
  | enter => exact m.site_ne_entry 0
  | step _ _ => exact m.site_ne_entry _

theorem all_nodes (m : Method) : Node.all m.size = .entry :: .exit :: (m.code.map Node.stmt).eraseDups := by
  have hval : Function.Injective (Fin.val (n := m.size)) := fun _ _ ↦ Fin.ext
  have hcode : m.code.eraseDups = List.finRange m.size := by
    refine List.map_injective_iff.2 hval ?_
    rw [← eraseDups_map hval, m.numbered, List.map_coe_finRange_eq_range]
  rw [eraseDups_map fun _ _ ↦ Node.stmt.inj, hcode, Node.all]

theorem exists_graph (hm : m.JumpsInRange) :
    ∃ g, m.graph = .ok g ∧ (.entry, m.site 0) ∈ g.edges ∧
      ∀ i k j, m.code[i]? = some k → m.Goes i (m.stmt k) j → (.stmt k, m.site j) ∈ g.edges := by
  obtain ⟨g, hg, -, hedges⟩ | ⟨e, -, hfirst⟩ := m.graph_cases
  · exact ⟨g, hg, (hedges _ _).2 .enter, fun i k j hk hj ↦ (hedges _ _).2 (.step hk hj)⟩
  · exact absurd hfirst hm.not_firstDangling

/-- A method has a graph unless some jump in it, reached or not, leads to no position; the first such jump is to
blame, with a message as long as its operators have symbols. The edges of the graph are where control may go, each of them once: nothing leads to the entry or on from
the exit, and from every statement control goes on. -/
theorem graph_eq_controlFlow (m : Method) :
    ((∃ e, m.graph = .error e) ↔
      ∃ k t, (m.stmt k).target? = some t ∧ ¬ (0 ≤ t ∧ t < m.code.length)) ∧
    (∀ e, m.graph = .error e → m.FirstDangling m.code e ∧
      (e.message?.isSome = true ↔ ∀ op ∈ e.origin.operators, op.symbol?.isSome = true)) ∧
    (∀ g, m.graph = .ok g → (∀ u v, (u, v) ∈ g.edges ↔ m.Flows u v) ∧
      g.predecessors .entry = [] ∧ g.successors .exit = [] ∧ (∀ k, g.successors (.stmt k) ≠ []) ∧
      ∀ v, (g.successors v).Nodup ∧ (g.predecessors v).Nodup) ∧
    Node.all m.size = .entry :: .exit :: (m.code.map Node.stmt).eraseDups := by
  obtain ⟨g, hg, hm, hedges⟩ | ⟨e, he, hfirst⟩ := m.graph_cases
  · have hok (e) : m.graph ≠ .error e := fun he ↦ nomatch hg.symm.trans he
    refine ⟨⟨fun ⟨e, he⟩ ↦ absurd he (hok e), fun ⟨k, t, ht, hout⟩ ↦ absurd (hm k t ht) hout⟩,
      fun e he ↦ absurd he (hok e), fun g' hg' ↦ ?_, m.all_nodes⟩
    obtain rfl : g = g' := Except.ok.inj (hg.symm.trans hg')
    refine ⟨hedges, ?_, ?_, fun k hk ↦ ?_, fun v ↦ ⟨g.nodup_successors v, g.nodup_predecessors v⟩⟩
    · refine List.eq_nil_iff_forall_not_mem.2 fun u hu ↦ ?_
      exact ((hedges u .entry).1 ((g.mem_predecessors u .entry).1 hu)).target_ne_entry rfl
    · refine List.eq_nil_iff_forall_not_mem.2 fun v hv ↦ ?_
      exact nomatch (hedges .exit v).1 ((g.mem_successors .exit v).1 hv)
    · obtain ⟨i, hi⟩ := List.mem_iff_getElem?.1 (m.mem_code k)
      obtain ⟨j, hj⟩ := exists_goes hm i k
      have hmem := (g.mem_successors _ _).2 ((hedges _ _).2 (.step hi hj))
      exact List.not_mem_nil (hk ▸ hmem)
  · have herror (g) : m.graph ≠ .ok g := fun hg ↦ nomatch he.symm.trans hg
    refine ⟨⟨fun _ ↦ ?_, fun _ ↦ ⟨e, he⟩⟩, fun e' he' ↦ ?_, fun g hg ↦ absurd hg (herror g), m.all_nodes⟩
    · obtain ⟨d, k, -, -, htarget, hout, -⟩ := hfirst
      exact ⟨k, e.target, htarget, hout⟩
    · obtain rfl : e = e' := Except.error.inj (he.symm.trans he')
      exact ⟨hfirst, e.isSome_message?⟩

end Method

end ConstantFlow
