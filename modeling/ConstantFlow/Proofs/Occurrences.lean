import ConstantFlow.Proofs.Evaluation
import ConstantFlow.Program.Method
import Mathlib.Data.List.Induction
import Mathlib.Data.List.Sort
import Mathlib.Order.Lattice

namespace ConstantFlow

namespace Exp

def parts : Exp → List Exp
  | literal _ | var _ | staticField _ | new _ => []
  | binary _ a b => [a, b]
  | neg e | cast _ e => [e]
  | field b _ => [b]
  | element b i => [b, i]
  | call _ args => args

def base? : Exp → Option Exp
  | field b _ | element b _ => some b
  | _ => none

/-- `e.HasAt path e'` if the path leads from `e` to `e'`. -/
inductive HasAt : Exp → List Nat → Exp → Prop
  | here (e : Exp) : HasAt e [] e
  | inside {e part e' : Exp} {i : Nat} {path : List Nat} :
      e.parts[i]? = some part → HasAt part path e' → HasAt e (i :: path) e'

theorem sizeOf_lt_of_mem_parts {e part : Exp} (h : part ∈ e.parts) : sizeOf part < sizeOf e := by
  cases e with
  | call m args =>
    have hlt := List.sizeOf_lt_of_mem h
    simp only [parts, call.sizeOf_spec] at hlt ⊢
    omega
  | binary op a b =>
    obtain rfl | rfl : part = a ∨ part = b := by simpa [parts] using h
    all_goals simp only [binary.sizeOf_spec]; omega
  | element b i =>
    obtain rfl | rfl : part = b ∨ part = i := by simpa [parts] using h
    all_goals simp only [element.sizeOf_spec]; omega
  | cast t e =>
    obtain rfl : part = e := by simpa [parts] using h
    simp only [cast.sizeOf_spec]
    omega
  | field b f =>
    obtain rfl : part = b := by simpa [parts] using h
    simp only [field.sizeOf_spec]
    omega
  | _ => simp_all [parts]

@[elab_as_elim]
theorem induction_parts {P : Exp → Prop} (h : ∀ e : Exp, (∀ part ∈ e.parts, P part) → P e) (e : Exp) : P e :=
  h e fun part _ ↦ induction_parts h part
termination_by sizeOf e
decreasing_by exact sizeOf_lt_of_mem_parts ‹_›

theorem hasAt_cons {e e' : Exp} {i : Nat} {path : List Nat} :
    e.HasAt (i :: path) e' ↔ ∃ part, e.parts[i]? = some part ∧ part.HasAt path e' := by
  constructor
  · rintro (_ | ⟨hi, h⟩)
    exact ⟨_, hi, h⟩
  · intro ⟨part, hi, h⟩
    exact .inside hi h

theorem hasAt_nil {e e' : Exp} : e.HasAt [] e' ↔ e' = e := by
  constructor
  · rintro ⟨⟩
    rfl
  · rintro rfl
    exact .here e'

end Exp

namespace Stmt

inductive HasAt : Stmt → List Nat → Exp → Prop
  | target {place value e : Exp} {path : List Nat} : place.HasAt path e → HasAt (.assign place value) (0 :: path) e
  | value {place value e : Exp} {path : List Nat} : value.HasAt path e → HasAt (.assign place value) (1 :: path) e
  | result {call result e : Exp} {path : List Nat} :
      result.HasAt path e → HasAt (.invoke call (some result)) (0 :: path) e
  | call {call e : Exp} {result : Option Exp} {path : List Nat} :
      call.HasAt path e → HasAt (.invoke call result) (1 :: path) e
  | condition {condition e : Exp} {target : Int} {path : List Nat} :
      condition.HasAt path e → HasAt (.branch condition target) (0 :: path) e
  | returned {value e : Exp} {path : List Nat} : value.HasAt path e → HasAt (.ret (some value)) (0 :: path) e

end Stmt

namespace Method

inductive HasAt (m : Method) : List Nat → Exp → Prop
  | param {i : Nat} {x : Var} : m.params[i]? = some x → HasAt m [0, i] (.var x)
  | line {i : Nat} {s : Stmt} {path : List Nat} {e : Exp} :
      m.listing[i]? = some s → s.HasAt path e → HasAt m (1 :: i :: path) e

end Method

theorem getElem?_concat_eq_some {α : Type} {l : List α} {a b : α} {i : Nat} :
    (l ++ [a])[i]? = some b ↔ l[i]? = some b ∨ i = l.length ∧ b = a := by
  rw [List.getElem?_append]
  split
  · next h => simp [h.ne]
  · next h =>
    have hnone : l[i]? = none := by simpa using h
    rw [hnone, List.getElem?_singleton]
    grind

/-- A row of variables, with repetitions, that goes through all places where a variable occurs. -/
def Enumerates (occurs : List Nat → Var → Prop) (row : List Var) : Prop :=
  ∃ found : List (List Nat × Var), found.map Prod.snd = row ∧ (found.map Prod.fst).Pairwise (· < ·) ∧
    ∀ place x, (place, x) ∈ found ↔ occurs place x

namespace Enumerates

variable {occurs occurs' : List Nat → Var → Prop} {row row' : List Var}

theorem congr (h : Enumerates occurs row) (heq : ∀ place x, occurs place x ↔ occurs' place x) :
    Enumerates occurs' row := by
  obtain ⟨found, hrow, hsorted, hfound⟩ := h
  exact ⟨found, hrow, hsorted, fun place x ↦ (hfound place x).trans (heq place x)⟩

theorem nil : Enumerates (fun _ _ ↦ False) [] := ⟨[], by simp⟩

theorem singleton (y : Var) : Enumerates (fun place x ↦ place = [] ∧ x = y) [y] := ⟨[([], y)], by simp⟩

theorem under (h : Enumerates occurs row) (i : Nat) :
    Enumerates (fun place x ↦ ∃ path, place = i :: path ∧ occurs path x) row := by
  obtain ⟨found, rfl, hsorted, hfound⟩ := h
  refine ⟨found.map fun e ↦ (i :: e.1, e.2), by simp, ?_, fun place x ↦ ?_⟩
  · simpa [List.pairwise_map] using hsorted
  · simp [← hfound, eq_comm (b := place), and_comm]

theorem append (h : Enumerates occurs row) (h' : Enumerates occurs' row')
    (hlt : ∀ place x place' x', occurs place x → occurs' place' x' → place < place') :
    Enumerates (fun place x ↦ occurs place x ∨ occurs' place x) (row ++ row') := by
  obtain ⟨found, rfl, hsorted, hfound⟩ := h
  obtain ⟨found', rfl, hsorted', hfound'⟩ := h'
  refine ⟨found ++ found', by simp, ?_, fun place x ↦ ?_⟩
  · rw [List.map_append, List.pairwise_append]
    refine ⟨hsorted, hsorted', ?_⟩
    simp only [List.mem_map]
    rintro _ ⟨⟨place, x⟩, hx, rfl⟩ _ ⟨⟨place', x'⟩, hx', rfl⟩
    exact hlt place x place' x' ((hfound place x).1 hx) ((hfound' place' x').1 hx')
  · rw [List.mem_append, hfound, hfound']

theorem pair (h : Enumerates occurs row) (h' : Enumerates occurs' row') :
    Enumerates (fun place x ↦ (∃ path, place = 0 :: path ∧ occurs path x) ∨ ∃ path, place = 1 :: path ∧ occurs' path x)
      (row ++ row') := by
  refine (h.under 0).append (h'.under 1) ?_
  rintro _ x _ x' ⟨path, rfl, -⟩ ⟨path', rfl, -⟩
  exact List.cons_lt_cons_iff.2 (.inl Nat.zero_lt_one)

theorem flatMap {α : Type} {R : α → List Nat → Var → Prop} {vars : α → List Var} {l : List α}
    (h : ∀ a ∈ l, Enumerates (R a) (vars a)) :
    Enumerates (fun place x ↦ ∃ i a path, l[i]? = some a ∧ place = i :: path ∧ R a path x) (l.flatMap vars) := by
  induction l using List.reverseRecOn with
  | nil => exact nil.congr (by simp)
  | append_singleton l a ih =>
    have hl := ih fun b hb ↦ h b (List.mem_append_left _ hb)
    have ha := (h a (by simp)).under l.length
    have hrow : (l ++ [a]).flatMap vars = l.flatMap vars ++ vars a := by simp
    rw [hrow]
    refine (hl.append ha ?_).congr fun place x ↦ ?_
    · rintro _ x _ x' ⟨i, b, path, hi, rfl, -⟩ ⟨path', rfl, -⟩
      exact List.cons_lt_cons_iff.2 (.inl (List.getElem?_eq_some_iff.1 hi).1)
    · simp only [getElem?_concat_eq_some, or_and_right, exists_or]
      refine or_congr_right ⟨?_, ?_⟩
      · rintro ⟨path, rfl, hR⟩
        exact ⟨l.length, a, path, ⟨rfl, rfl⟩, rfl, hR⟩
      · rintro ⟨_, _, path, ⟨rfl, rfl⟩, rfl, hR⟩
        exact ⟨path, rfl, hR⟩

end Enumerates

namespace Exp

theorem argVars_eq (args : List Exp) : argVars args = args.flatMap vars := by
  induction args with
  | nil => rfl
  | cons e rest ih => rw [argVars, ih, List.flatMap_cons]

theorem vars_eq_flatMap_parts {e : Exp} (h : ∀ x, e ≠ .var x) : e.vars = e.parts.flatMap vars := by
  cases e with
  | var x => exact absurd rfl (h x)
  | call m args => simp [vars, parts, argVars_eq]
  | _ => simp [vars, parts]

theorem enumerates_vars (e : Exp) : Enumerates (fun place x ↦ e.HasAt place (.var x)) e.vars := by
  induction e using induction_parts with
  | h e ih =>
    by_cases he : ∃ y, e = .var y
    · obtain ⟨y, rfl⟩ := he
      refine (Enumerates.singleton y).congr fun place x ↦ ?_
      cases place with
      | nil => simp [hasAt_nil]
      | cons i path => simp [hasAt_cons, parts]
    · rw [not_exists] at he
      rw [vars_eq_flatMap_parts he]
      refine (Enumerates.flatMap ih).congr fun place x ↦ ?_
      cases place with
      | nil => simp [hasAt_nil, eq_comm, he x]
      | cons i path => simp [hasAt_cons]

end Exp

theorem Stmt.enumerates_vars (s : Stmt) : Enumerates (fun place x ↦ s.HasAt place (.var x)) s.vars := by
  cases s with
  | assign target value =>
    simp only [vars, exps, List.flatMap_cons, List.flatMap_nil, List.append_nil]
    refine (target.enumerates_vars.pair value.enumerates_vars).congr fun place x ↦ ?_
    grind [HasAt]
  | invoke call result =>
    cases result with
    | none =>
      simp only [vars, exps, List.flatMap_singleton]
      refine (call.enumerates_vars.under 1).congr fun place x ↦ ?_
      grind [HasAt]
    | some result =>
      simp only [vars, exps, List.flatMap_cons, List.flatMap_nil, List.append_nil]
      refine (result.enumerates_vars.pair call.enumerates_vars).congr fun place x ↦ ?_
      grind [HasAt]
  | branch condition target =>
    simp only [vars, exps, List.flatMap_singleton]
    refine (condition.enumerates_vars.under 0).congr fun place x ↦ ?_
    grind [HasAt]
  | ret value =>
    cases value with
    | none => exact Enumerates.nil.congr (by grind [HasAt])
    | some value =>
      simp only [vars, exps, List.flatMap_singleton]
      refine (value.enumerates_vars.under 0).congr fun place x ↦ ?_
      grind [HasAt]
  | goto target => exact Enumerates.nil.congr (by grind [HasAt])
  | nop label => exact Enumerates.nil.congr (by grind [HasAt])

/-- The first variable has a place before all places of the second. -/
def FirstBefore (occurs : List Nat → Var → Prop) (x y : Var) : Prop :=
  ∃ place, occurs place x ∧ ∀ place', occurs place' y → place < place'

theorem FirstBefore.ne {occurs : List Nat → Var → Prop} {x y : Var} (h : FirstBefore occurs x y) : x ≠ y := by
  rintro rfl
  obtain ⟨place, hx, hlt⟩ := h
  exact List.lt_irrefl place (hlt place hx)

theorem FirstBefore.asymm {occurs : List Nat → Var → Prop} {x y : Var} (h : FirstBefore occurs x y) :
    ¬ FirstBefore occurs y x := by
  intro ⟨place', hy, hlt'⟩
  obtain ⟨place, hx, hlt⟩ := h
  exact List.lt_asymm (hlt place' hy) (hlt' place hx)

theorem pairwise_eraseDups {found : List (List Nat × Var)} (h : (found.map Prod.fst).Pairwise (· < ·)) :
    (found.map Prod.snd).eraseDups.Pairwise (FirstBefore fun place x ↦ (place, x) ∈ found) := by
  induction found using List.reverseRecOn with
  | nil => simp
  | append_singleton found last ih =>
    rw [List.map_append, List.pairwise_append] at h
    obtain ⟨hsorted, -, hlast⟩ := h
    have hlt : ∀ place x, (place, x) ∈ found → place < last.1 :=
      fun place x hx ↦ hlast place (List.mem_map_of_mem hx) last.1 (by simp)
    -- the last place comes after all others, so it can only add a variable at the end
    have hold : (found.map Prod.snd).eraseDups.Pairwise (FirstBefore fun place x ↦ (place, x) ∈ found ++ [last]) := by
      refine (ih hsorted).imp ?_
      intro x y ⟨place, hx, hy⟩
      refine ⟨place, List.mem_append_left _ hx, fun place' hy' ↦ ?_⟩
      obtain hy' | rfl := List.mem_append.1 hy' |>.imp_right List.mem_singleton.1
      · exact hy place' hy'
      · exact hlt place x hx
    rw [List.map_append, List.map_singleton, eraseDups_concat]
    split
    · exact hold
    · next hnew =>
      refine List.pairwise_append.2 ⟨hold, List.pairwise_singleton _ _, fun x hx y hy ↦ ?_⟩
      rw [List.mem_eraseDups] at hx
      obtain ⟨⟨place, x⟩, hplace, rfl⟩ := List.mem_map.1 hx
      obtain rfl := List.mem_singleton.1 hy
      refine ⟨place, List.mem_append_left _ hplace, fun place' hy' ↦ ?_⟩
      obtain hy' | hy' := List.mem_append.1 hy'
      · exact absurd (List.mem_map_of_mem hy') hnew
      · obtain rfl : place' = last.1 := congrArg Prod.fst (List.mem_singleton.1 hy')
        exact hlt place x hplace

theorem Enumerates.eraseDups {occurs : List Nat → Var → Prop} {row : List Var} (h : Enumerates occurs row) :
    (∀ x, x ∈ row.eraseDups ↔ ∃ place, occurs place x) ∧ row.eraseDups.Pairwise (FirstBefore occurs) := by
  obtain ⟨found, rfl, hsorted, hfound⟩ := h
  obtain rfl : (fun place x ↦ (place, x) ∈ found) = occurs := funext₂ fun place x ↦ propext (hfound place x)
  exact ⟨by simp, pairwise_eraseDups hsorted⟩

namespace Exp

theorem argsHaveVarBases_eq (args : List Exp) : argsHaveVarBases args = args.all hasVarBases := by
  induction args with
  | nil => rfl
  | cons e rest ih => rw [argsHaveVarBases, ih, List.all_cons]

theorem hasVarBases_iff_parts {e : Exp} :
    e.hasVarBases = true ↔
      (∀ b, e.base? = some b → b.isVar = true) ∧ ∀ part ∈ e.parts, part.hasVarBases = true := by
  have hvar {b : Exp} (h : b.isVar = true) : b.hasVarBases = true := by
    cases b with
    | var x => rfl
    | _ => cases h
  cases e with
  | field b f => simpa [hasVarBases, base?, parts] using hvar
  | element b i =>
    simp only [hasVarBases, base?, parts, Bool.and_eq_true]
    grind
  | call m args => simp [hasVarBases, base?, parts, argsHaveVarBases_eq]
  | _ => simp [hasVarBases, base?, parts]

theorem hasVarBases_iff {e : Exp} :
    e.hasVarBases = true ↔ ∀ path e' b, e.HasAt path e' → e'.base? = some b → b.isVar = true := by
  induction e using induction_parts with
  | h e ih =>
    rw [hasVarBases_iff_parts]
    constructor
    · intro ⟨hbase, hparts⟩ path e' b h
      cases h with
      | here => exact hbase b
      | inside hi h =>
        have hpart := List.mem_of_getElem? hi
        exact (ih _ hpart).1 (hparts _ hpart) _ e' b h
    · intro h
      refine ⟨fun b ↦ h [] e b (.here e), fun part hpart ↦ (ih part hpart).2 fun path e' b hat ↦ ?_⟩
      obtain ⟨i, hi⟩ := List.getElem?_of_mem hpart
      exact h (i :: path) e' b (.inside hi hat)

end Exp

theorem Stmt.HasAt.exists_mem_exps {s : Stmt} {place : List Nat} {e : Exp} (h : s.HasAt place e) :
    ∃ part ∈ s.exps, ∃ path, part.HasAt path e := by
  cases h with
  | @call call _ result path h =>
    have hcall : call ∈ (invoke call result).exps := by cases result <;> simp [exps]
    exact ⟨call, hcall, path, h⟩
  | target h | value h | result h | condition h | returned h => exact ⟨_, by simp [exps], _, h⟩

theorem Stmt.exists_hasAt {s : Stmt} {part e : Exp} {path : List Nat} (hpart : part ∈ s.exps) (h : part.HasAt path e) :
    ∃ place, s.HasAt place e := by
  cases s with
  | assign target value =>
    obtain rfl | rfl : part = target ∨ part = value := by simpa [exps] using hpart
    · exact ⟨_, .target h⟩
    · exact ⟨_, .value h⟩
  | invoke call result =>
    cases result with
    | none =>
      obtain rfl : part = call := by simpa [exps] using hpart
      exact ⟨_, .call h⟩
    | some result =>
      obtain rfl | rfl : part = result ∨ part = call := by simpa [exps] using hpart
      · exact ⟨_, .result h⟩
      · exact ⟨_, .call h⟩
  | branch condition target =>
    obtain rfl : part = condition := by simpa [exps] using hpart
    exact ⟨_, .condition h⟩
  | ret value =>
    cases value with
    | none => simp [exps] at hpart
    | some value =>
      obtain rfl : part = value := by simpa [exps] using hpart
      exact ⟨_, .returned h⟩
  | goto target => simp [exps] at hpart
  | nop label => simp [exps] at hpart

namespace Method

variable {m : Method} {l : List Var}

def mentions (m : Method) : List Var := m.params ++ m.listing.flatMap Stmt.vars

theorem enumerates_mentions (m : Method) : Enumerates (fun place x ↦ m.HasAt place (.var x)) m.mentions := by
  have hparams : Enumerates (fun place x ↦ ∃ i y path, m.params[i]? = some y ∧ place = i :: path ∧ path = [] ∧ x = y)
      m.params := by
    simpa using Enumerates.flatMap (l := m.params) fun y _ ↦ Enumerates.singleton y
  have hlines := Enumerates.flatMap (l := m.listing) fun s _ ↦ s.enumerates_vars
  refine (hparams.pair hlines).congr fun place x ↦ ?_
  grind [HasAt]

def HasVarBases (m : Method) : Prop := ∀ place e b, m.HasAt place e → e.base? = some b → b.isVar = true

theorem hasVarBases_iff : m.HasVarBases ↔ ∀ s ∈ m.listing, s.hasVarBases = true := by
  simp only [Stmt.hasVarBases, List.all_eq_true, Exp.hasVarBases_iff]
  constructor
  · intro h s hs part hpart path e b hat
    obtain ⟨i, hi⟩ := List.getElem?_of_mem hs
    obtain ⟨place, hplace⟩ := Stmt.exists_hasAt hpart hat
    exact h _ e b (.line hi hplace)
  · rintro h place e b (hparam | ⟨hi, hat⟩) hbase
    · cases hbase
    · obtain ⟨part, hpart, path, hpath⟩ := hat.exists_mem_exps
      exact h _ (List.mem_of_getElem? hi) part hpart path e b hpath hbase

/-- A list of the variables that occur in the method, by their first occurrences. -/
structure ListsFirst (m : Method) (l : List Var) : Prop where
  nodup : l.Nodup
  mem_iff : ∀ x, x ∈ l ↔ ∃ place, m.HasAt place (.var x)
  ordered : l.Pairwise (FirstBefore fun place x ↦ m.HasAt place (.var x))

theorem listsFirst_vars (m : Method) : m.ListsFirst m.vars := by
  obtain ⟨hmem, hordered⟩ := m.enumerates_mentions.eraseDups
  exact ⟨hordered.imp FirstBefore.ne, hmem, hordered⟩

theorem ListsFirst.unique {l' : List Var} (h : m.ListsFirst l) (h' : m.ListsFirst l') : l = l' := by
  have hperm : l.Perm l' :=
    (List.perm_ext_iff_of_nodup h.nodup h'.nodup).2 fun x ↦ (h.mem_iff x).trans (h'.mem_iff x).symm
  exact hperm.eq_of_pairwise (fun x y _ _ hxy hyx ↦ absurd hyx hxy.asymm) h.ordered h'.ordered

/-- Where all bases are variables, the variables of a method are the one list of what occurs in it, at any depth and
without repetition, by first occurrence. -/
theorem exists_vars_listsFirst (m : Method) (h : m.HasVarBases) :
    ∃ l, m.vars? = some l ∧ m.ListsFirst l ∧ ∀ l', m.ListsFirst l' → l' = l := by
  have hall : m.listing.all Stmt.hasVarBases = true := List.all_eq_true.2 (hasVarBases_iff.1 h)
  have hvars := m.listsFirst_vars
  exact ⟨m.vars, if_pos hall, hvars, fun l' hl' ↦ hl'.unique hvars⟩

def mentioning : Method :=
  (((((empty "mentioning" [.int "n", .int "k"]).push
    (.assign (.element (.var (.int "a")) (.binary (.arithmetic .add) (.var (.int "i")) (.var (.int "n"))))
      (.binary (.arithmetic .mul) (.neg (.cast (.primitive .int) (.var (.int "n")))) (.field (.var (.int "o")) "f")))).push
    (.invoke (.call "m" [.var (.int "k"), .element (.var (.int "a")) (.var (.int "s"))]) (some (.var (.int "r"))))).push
    (.branch (.binary (.condition .ge) (.var (.int "j")) (.var (.int "i"))) 0)).push
    (.ret (some (.var (.int "z"))))).repeatStmt ⟨0, by decide⟩

theorem mentioning_listsFirst :
    mentioning.HasVarBases ∧ ∃ l, mentioning.vars? = some l ∧ mentioning.ListsFirst l ∧
      l.map Var.name = ["n", "k", "a", "i", "o", "r", "s", "j", "z"] := by
  have h : mentioning.HasVarBases := hasVarBases_iff.2 (by decide)
  obtain ⟨l, hl, hfirst, -⟩ := exists_vars_listsFirst mentioning h
  have hnames : mentioning.vars?.map (List.map Var.name) = some ["n", "k", "a", "i", "o", "r", "s", "j", "z"] := by
    decide +kernel
  rw [hl] at hnames
  exact ⟨h, l, hl, hfirst, Option.some.inj hnames⟩

end Method

end ConstantFlow
