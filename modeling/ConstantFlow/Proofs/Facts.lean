import ConstantFlow.Fact.Basic
import ConstantFlow.Proofs.Lattice
import Mathlib.Order.Basic

namespace ConstantFlow.Fact

variable {f g t : Fact} {x y : Var} {v : Value} {l : List (Var × Value)}

/-- Facts are compared by what they read. Two of them may be equal as readings only. -/
instance : Preorder Fact := Preorder.lift get

theorem le_def : f ≤ g ↔ ∀ x, f.get x ≤ g.get x := Iff.rfl

theorem get_le (h : f ≤ g) (x : Var) : f.get x ≤ g.get x := h x

theorem le_of_get_eq (h : f.get = g.get) : f ≤ g := fun x ↦ (congrFun h x).le

theorem get_eq_of_le_of_le (h : f ≤ g) (h' : g ≤ f) : f.get = g.get := le_antisymm h h'

theorem empty_le (f : Fact) : empty ≤ f := fun x ↦ Value.undef_le (f.get x)

/-- The order of facts, on some variables only. -/
def LeOn (S : Set Var) (f g : Fact) : Prop := ∀ x ∈ S, f.get x ≤ g.get x

theorem LeOn.refl (S : Set Var) (f : Fact) : f.LeOn S f := fun _ _ ↦ le_rfl

theorem LeOn.trans {S : Set Var} (h : f.LeOn S g) (h' : g.LeOn S t) : f.LeOn S t :=
  fun x hx ↦ (h x hx).trans (h' x hx)

theorem LeOn.of_le {S : Set Var} (h : f ≤ g) : f.LeOn S g := fun x _ ↦ h x

theorem leOn_univ : f.LeOn Set.univ g ↔ f ≤ g := ⟨fun h x ↦ h x trivial, .of_le⟩

theorem nodup_entries (f : Fact) : (f.entries.map Prod.fst).Nodup := f.bindings.distinct

theorem nodup_keys (f : Fact) : f.keys.Nodup := f.bindings.distinct

theorem get_eq_undef (h : x ∉ f.keys) : f.get x = .undef := by
  have hn : f.bindings.get? x = none := readAt_eq_none.2 h
  rw [get, hn, Option.getD_none]

theorem get_eq_of_mem (h : (x, v) ∈ f.entries) : f.get x = v := by
  have hs : f.bindings.get? x = some v := (readAt_eq_some f.nodup_entries).2 h
  rw [get, hs, Option.getD_some]

theorem mem_keys : x ∈ f.keys ↔ ∃ v, (x, v) ∈ f.entries := by
  constructor
  · intro h
    obtain ⟨⟨k, v⟩, he, rfl⟩ := List.mem_map.1 h
    exact ⟨v, he⟩
  · rintro ⟨v, h⟩
    exact List.mem_map_of_mem h

theorem mem_entries : (x, v) ∈ f.entries ↔ x ∈ f.keys ∧ f.get x = v := by
  constructor
  · intro h
    exact ⟨mem_keys.2 ⟨v, h⟩, get_eq_of_mem h⟩
  · rintro ⟨hx, rfl⟩
    obtain ⟨v, hv⟩ := mem_keys.1 hx
    rwa [get_eq_of_mem hv]

theorem set_of_mem (h : (x, v) ∈ f.entries) : f.set x v = f := by
  have hr : f.bindings.get? x = some v := (readAt_eq_some f.nodup_entries).2 h
  rw [set, Table.insert_of_get? hr]

theorem mem_keys_set : x ∈ (f.set y v).keys ↔ x = y ∨ x ∈ f.keys := by
  rw [keys_set]
  split
  · next h => exact ⟨.inr, fun hx ↦ hx.elim (fun e ↦ e ▸ h) id⟩
  · rw [List.mem_append, List.mem_singleton, or_comm]

section

variable (op : Value → Value → Value)

theorem get_foldl_set (hl : (l.map Prod.fst).Nodup) (t : Fact) (x : Var) :
    (l.foldl (fun t e ↦ t.set e.1 (op e.2 (t.get e.1))) t).get x =
      ((readAt x l).map fun v ↦ op v (t.get x)).getD (t.get x) := by
  induction l generalizing t with
  | nil => rfl
  | cons e l ih =>
    simp only [List.map_cons, List.nodup_cons] at hl
    rw [List.foldl_cons, ih hl.2, get_set, readAt]
    by_cases h : e.1 = x
    · subst h
      rw [readAt_eq_none.2 hl.1, if_pos rfl, if_pos rfl]
      rfl
    · rw [if_neg h, if_neg h]

theorem mem_keys_foldl_set (t : Fact) :
    x ∈ (l.foldl (fun t e ↦ t.set e.1 (op e.2 (t.get e.1))) t).keys ↔ x ∈ l.map Prod.fst ∨ x ∈ t.keys := by
  induction l generalizing t with
  | nil => simp
  | cons e l ih =>
    rw [List.foldl_cons, ih, mem_keys_set, List.map_cons, List.mem_cons, or_left_comm, or_assoc]

/-- New keys come last, in the order in which they are written. -/
theorem keys_foldl_set (hl : (l.map Prod.fst).Nodup) (t : Fact) :
    (l.foldl (fun t e ↦ t.set e.1 (op e.2 (t.get e.1))) t).keys =
      t.keys ++ (l.map Prod.fst).filter (· ∉ t.keys) := by
  induction l generalizing t with
  | nil => simp
  | cons e l ih =>
    simp only [List.map_cons, List.nodup_cons] at hl
    rw [List.foldl_cons, ih hl.2, keys_set, List.map_cons]
    by_cases he : e.1 ∈ t.keys
    · simp [he]
    · have hrest : (l.map Prod.fst).filter (· ∉ t.keys ++ [e.1]) = (l.map Prod.fst).filter (· ∉ t.keys) := by
        apply List.filter_congr
        intro y hy
        have hne : y ≠ e.1 := fun h ↦ hl.1 (h ▸ hy)
        simp [hne]
      rw [if_neg he, hrest, List.filter_cons_of_pos (by simpa using he), List.append_assoc, List.singleton_append]

theorem foldl_set_eq_self (hop : ∀ v, op v v = v) (hl : ∀ e ∈ l, e ∈ f.entries) :
    l.foldl (fun t e ↦ t.set e.1 (op e.2 (t.get e.1))) f = f := by
  induction l with
  | nil => rfl
  | cons e l ih =>
    obtain ⟨he, hl⟩ := List.forall_mem_cons.1 hl
    rw [List.foldl_cons, get_eq_of_mem he, hop, set_of_mem he]
    exact ih hl

end

theorem leq_iff : f.leq g = true ↔ f ≤ g := by
  simp only [leq, List.all_eq_true, decide_eq_true_eq]
  constructor
  · intro h x
    by_cases hx : x ∈ f.keys
    · obtain ⟨v, hv⟩ := mem_keys.1 hx
      exact (get_eq_of_mem hv).symm ▸ h _ hv
    · exact (get_eq_undef hx).symm ▸ Value.undef_le _
  · rintro h ⟨x, v⟩ he
    exact get_eq_of_mem he ▸ h x

theorem agrees_iff : f.agrees g = true ↔ f.get = g.get := by
  simp only [agrees, List.all_eq_true, decide_eq_true_eq, List.mem_append]
  constructor
  · intro h
    funext x
    by_cases hf : x ∈ f.keys
    · exact h x (.inl hf)
    · by_cases hg : x ∈ g.keys
      · exact h x (.inr hg)
      · rw [get_eq_undef hf, get_eq_undef hg]
  · intro h x _
    rw [h]

theorem le_set (h : f.get x ≤ v) : f ≤ f.set x v := by
  intro y
  change f.get y ≤ (f.set x v).get y
  rw [get_set]
  split
  · next hxy => exact hxy ▸ h
  · exact le_rfl

theorem set_le_set {w : Value} (h : f ≤ g) (hv : v ≤ w) (x : Var) : f.set x v ≤ g.set x w := by
  intro y
  change (f.set x v).get y ≤ (g.set x w).get y
  rw [get_set, get_set]
  split
  · exact hv
  · exact h y

theorem agrees_set (f : Fact) (x : Var) (v : Value) : f.agrees (f.set x v) = decide (f.get x = v) := by
  rw [Bool.eq_iff_iff, agrees_iff, decide_eq_true_eq]
  constructor
  · intro h
    rw [h, get_set, if_pos rfl]
  · intro h
    funext y
    rw [get_set]
    split
    · next hxy => rw [← h, hxy]
    · rfl

def meetEntries (l : List (Var × Value)) (t : Fact) : Fact :=
  l.foldl (fun t e ↦ t.set e.1 (e.2.meet (t.get e.1))) t

def merge (f t : Fact) : Fact := meetEntries f.entries t

theorem meetInto_eq (f t : Fact) (checked : Bool) : f.meetInto checked t = .ok (f.merge t) := by
  unfold meetInto merge
  generalize f.entries = l
  induction l generalizing t with
  | nil => rfl
  | cons e l ih =>
    have hstep : (if checked then (t.raise e.1 (e.2.meet (t.get e.1))).map Prod.fst
        else .ok (t.set e.1 (e.2.meet (t.get e.1)))) = .ok (t.set e.1 (e.2.meet (t.get e.1))) := by
      cases checked with
      | false => rfl
      | true =>
        -- the check cannot fail, since the meet lies above the value it replaces
        rw [if_pos rfl, raise, if_pos (Value.le_meet_right _ _)]
        rfl
    rw [List.foldlM_cons]
    simp only [hstep]
    exact ih _

theorem get_meetEntries (hl : (l.map Prod.fst).Nodup) (t : Fact) (x : Var) :
    (meetEntries l t).get x = ((readAt x l).getD .undef).meet (t.get x) := by
  rw [meetEntries, get_foldl_set Value.meet hl]
  cases readAt x l <;> rfl

theorem get_merge (f t : Fact) (x : Var) : (f.merge t).get x = (f.get x).meet (t.get x) :=
  get_meetEntries f.nodup_entries t x

theorem mem_keys_merge : x ∈ (f.merge t).keys ↔ x ∈ f.keys ∨ x ∈ t.keys := mem_keys_foldl_set Value.meet t

theorem le_merge_left (f t : Fact) : f ≤ f.merge t :=
  fun x ↦ get_merge f t x ▸ Value.le_meet_left _ _

theorem le_merge_right (f t : Fact) : t ≤ f.merge t :=
  fun x ↦ get_merge f t x ▸ Value.le_meet_right _ _

def mergeAll (l : List Fact) (t : Fact) : Fact := l.foldl (fun t f ↦ f.merge t) t

theorem le_mergeAll (l : List Fact) (t : Fact) : t ≤ mergeAll l t := by
  induction l generalizing t with
  | nil => exact le_rfl
  | cons f l ih => exact (le_merge_right f t).trans (ih _)

theorem le_mergeAll_of_mem {l : List Fact} (h : f ∈ l) (t : Fact) : f ≤ mergeAll l t := by
  induction l generalizing t with
  | nil => cases h
  | cons f' l ih =>
    rcases List.mem_cons.1 h with rfl | h
    · exact (le_merge_left f t).trans (le_mergeAll l _)
    · exact ih h _

theorem get_mergeAll (l : List Fact) (t : Fact) (x : Var) :
    (mergeAll l t).get x = (Value.meets (l.map fun f ↦ f.get x)).meet (t.get x) := by
  induction l generalizing t with
  | nil => rfl
  | cons f l ih =>
    rw [mergeAll, List.foldl_cons, ← mergeAll, ih, get_merge]
    exact (sup_left_comm _ _ _).trans (sup_assoc _ _ _).symm

theorem mergeAll_leOn {S : Set Var} {l : List Fact} (hl : ∀ f ∈ l, f.LeOn S g) (ht : t.LeOn S g) :
    (mergeAll l t).LeOn S g := by
  intro x hx
  rw [get_mergeAll]
  refine Value.meet_le (Value.meets_le fun a ha ↦ ?_) (ht x hx)
  obtain ⟨f, hf, rfl⟩ := List.mem_map.1 ha
  exact hl f hf x hx

theorem mergeAll_le {l : List Fact} (hl : ∀ f ∈ l, f ≤ g) (ht : t ≤ g) : mergeAll l t ≤ g :=
  leOn_univ.1 (mergeAll_leOn (fun f hf ↦ .of_le (hl f hf)) (.of_le ht))

theorem mem_keys_mergeAll_of_mem {l : List Fact} (h : x ∈ t.keys) : x ∈ (mergeAll l t).keys := by
  induction l generalizing t with
  | nil => exact h
  | cons f l ih => exact ih (mem_keys_merge.2 (.inr h))

def setEntries (l : List (Var × Value)) (f : Fact) : Fact := l.foldl (fun f e ↦ f.set e.1 e.2) f

theorem get_setEntries (hl : (l.map Prod.fst).Nodup) (f : Fact) (x : Var) :
    (setEntries l f).get x = (readAt x l).getD (f.get x) := by
  rw [setEntries, get_foldl_set (fun v _ ↦ v) hl]
  cases readAt x l <;> rfl

theorem mem_keys_setEntries : x ∈ (setEntries l f).keys ↔ x ∈ l.map Prod.fst ∨ x ∈ f.keys :=
  mem_keys_foldl_set (fun v _ ↦ v) f

/-- The flag of a copy under way: a change so far, or an entry still to come that reads differently. -/
theorem foldl_update (hl : (l.map Prod.fst).Nodup) (f : Fact) (b : Bool) :
    l.foldl (fun (acc : Fact × Bool) e ↦
      let (f', changed) := acc.1.update e.1 e.2
      (f', acc.2 || changed)) (f, b) = (setEntries l f, b || l.any fun e ↦ f.get e.1 ≠ e.2) := by
  induction l generalizing f b with
  | nil => simp [setEntries]
  | cons e l ih =>
    simp only [List.map_cons, List.nodup_cons] at hl
    rw [List.foldl_cons, ih hl.2]
    have hrest : (l.any fun e' ↦ (f.set e.1 e.2).get e'.1 ≠ e'.2) = l.any fun e' ↦ f.get e'.1 ≠ e'.2 := by
      rw [Bool.eq_iff_iff, List.any_eq_true, List.any_eq_true]
      refine exists_congr fun e' ↦ and_congr_right fun he' ↦ ?_
      have hne : e.1 ≠ e'.1 := fun h ↦ hl.1 (h ▸ List.mem_map_of_mem he')
      rw [get_set, if_neg hne]
    simp only [update_eq, hrest, setEntries, List.foldl_cons, List.any_cons, Bool.or_assoc]

theorem copyFrom_eq (f g : Fact) :
    f.copyFrom g = (setEntries g.entries f, g.entries.any fun e ↦ f.get e.1 ≠ e.2) := by
  have h := foldl_update g.nodup_entries f false
  rwa [Bool.false_or] at h

theorem get_copyFrom (f g : Fact) (x : Var) :
    (f.copyFrom g).1.get x = if x ∈ g.keys then g.get x else f.get x := by
  rw [copyFrom_eq]
  dsimp only
  rw [get_setEntries g.nodup_entries]
  split
  · next h =>
    obtain ⟨v, hv⟩ := mem_keys.1 h
    rw [(readAt_eq_some g.nodup_entries).2 hv, get_eq_of_mem hv, Option.getD_some]
  · next h =>
    have hn : readAt x g.entries = none := readAt_eq_none.2 h
    rw [hn, Option.getD_none]

theorem mem_keys_copyFrom : x ∈ (f.copyFrom g).1.keys ↔ x ∈ g.keys ∨ x ∈ f.keys := by
  rw [copyFrom_eq]
  exact mem_keys_setEntries

theorem copyFrom_changed : (f.copyFrom g).2 = true ↔ (f.copyFrom g).1.get ≠ f.get := by
  have hany : (f.copyFrom g).2 = true ↔ ∃ x ∈ g.keys, f.get x ≠ g.get x := by
    simp only [copyFrom_eq, List.any_eq_true, decide_eq_true_eq]
    constructor
    · rintro ⟨⟨x, v⟩, he, hne⟩
      exact ⟨x, mem_keys.2 ⟨v, he⟩, (get_eq_of_mem he).symm ▸ hne⟩
    · rintro ⟨x, hx, hne⟩
      obtain ⟨v, he⟩ := mem_keys.1 hx
      exact ⟨(x, v), he, get_eq_of_mem he ▸ hne⟩
  rw [hany, Function.ne_iff]
  refine exists_congr fun x ↦ ?_
  rw [get_copyFrom]
  by_cases hx : x ∈ g.keys
  · simp [hx, ne_comm]
  · simp [hx]

theorem agrees_copyFrom (f g : Fact) : f.agrees (f.copyFrom g).1 = !(f.copyFrom g).2 := by
  rw [Bool.eq_iff_iff, agrees_iff, Bool.not_eq_true', ← Bool.not_eq_true, copyFrom_changed, not_not, eq_comm]

theorem get_copyFrom_of_keys (h : ∀ x ∈ f.keys, x ∈ g.keys) : (f.copyFrom g).1.get = g.get := by
  funext x
  rw [get_copyFrom]
  split
  · rfl
  · next hx => rw [get_eq_undef fun hf ↦ hx (h x hf), get_eq_undef hx]

end ConstantFlow.Fact
