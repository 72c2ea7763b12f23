import ConstantFlow.Fact.Pool
import ConstantFlow.Proofs.Evaluation

namespace ConstantFlow

namespace Fact

variable {f g : Fact}

theorem mem_entries_copyFrom (f : Fact) {e : Var × Value} (h : e ∈ g.entries) : e ∈ (f.copyFrom g).1.entries := by
  obtain ⟨hx, hv⟩ := mem_entries.1 h
  refine mem_entries.2 ⟨mem_keys_copyFrom.2 (.inl hx), ?_⟩
  rw [get_copyFrom, if_pos hx, hv]

theorem copyFrom_copyFrom (f g : Fact) : (f.copyFrom g).1.copyFrom g = ((f.copyFrom g).1, false) := by
  have hmem : ∀ e ∈ g.entries, e ∈ (f.copyFrom g).1.entries := fun _ ↦ mem_entries_copyFrom f
  have hsame : setEntries g.entries (f.copyFrom g).1 = (f.copyFrom g).1 :=
    foldl_set_eq_self (fun v _ ↦ v) (fun _ ↦ rfl) hmem
  rw [copyFrom_eq (f.copyFrom g).1, hsame, Prod.mk.injEq]
  refine ⟨rfl, List.any_eq_false.2 fun e he ↦ ?_⟩
  simpa using get_eq_of_mem (hmem e he)

end Fact

namespace Stmt

variable {s : Stmt} {f g g' : Fact} {changed : Bool}

/-- What a statement makes of a fact `g`, where `f` is what was known before the statement. -/
structure Updates (s : Stmt) (f g g' : Fact) (changed : Bool) : Prop where
  defined : ∀ x e, s.definition? = some (.var x, e) → x.isTracked = true → e.evaluate f = .ok (g'.get x)
  kept : ∀ y, (∀ e, s.definition? = some (.var y, e) → y.isTracked = false) →
    g'.get y = if y ∈ f.keys then f.get y else g.get y
  changed_iff : changed = true ↔ ∃ y, g'.get y ≠ g.get y

theorem updates_copyFrom (hs : s.IsProper) (f g : Fact) :
    s.Updates f g (g.copyFrom (s.effect f)).1 (g.copyFrom (s.effect f)).2 where
  defined x e hd hx := by
    have ht : s.tracked? = some (x, e) := tracked?_eq_some.2 ⟨hd, hx⟩
    have hkey : x ∈ (s.effect f).keys := by
      rw [effect_tracked ht]
      exact Fact.mem_keys_set.2 (.inl rfl)
    rw [Fact.get_copyFrom, if_pos hkey, get_effect_tracked ht, if_pos rfl, Exp.evaluate, hs x e ht]
  kept y hy := by
    have hn : ∀ e, s.tracked? ≠ some (y, e) := by
      intro e ht
      obtain ⟨hd, hx⟩ := tracked?_eq_some.1 ht
      exact Bool.eq_false_iff.1 (hy e hd) hx
    rw [Fact.get_copyFrom, get_effect_of_untouched hn, if_congr (mem_keys_effect_of_untouched hn f) rfl rfl]
  changed_iff := by
    rw [Fact.copyFrom_changed, Function.ne_iff]

end Stmt

namespace Pool

variable {p : Pool} {s : Stmt} {source slot : String} {f g : Fact}

theorem result_transfer (hs : s.IsProper) (hf : p.get source = .ok f) (hg : p.get slot = .ok g) (checked : Bool) :
    p.result checked (.transfer s source slot) =
      .ok ((g.copyFrom (s.effect f)).1, some (g.copyFrom (s.effect f)).2) := by
  simp only [result, hf, hg, Stmt.transfer_eq hs, bind, Except.bind]
  rfl

/-- A transfer within a pool updates the fact of its slot, and no other fact. Made again from another fact, it
reports no change and leaves the whole pool as it is. -/
theorem transfer_updates (hs : s.IsProper) (hf : p.get source = .ok f) (hg : p.get slot = .ok g) (checked : Bool) :
    ∃ g' changed, p.result checked (.transfer s source slot) = .ok (g', some changed) ∧
      s.Updates f g g' changed ∧
      (∀ other, (p.run checked (.transfer s source slot)).get other = if slot = other then .ok g' else p.get other) ∧
      (source ≠ slot →
        (p.run checked (.transfer s source slot)).result checked (.transfer s source slot) = .ok (g', some false) ∧
        (p.run checked (.transfer s source slot)).run checked (.transfer s source slot) =
          p.run checked (.transfer s source slot)) := by
  have hresult := result_transfer hs hf hg checked
  have hrun := run_of_result hresult
  refine ⟨_, _, hresult, Stmt.updates_copyFrom hs f g, ?_, ?_⟩
  · intro other
    rw [hrun, get_put]
    rfl
  · intro hne
    have hf' : (p.run checked (.transfer s source slot)).get source = .ok f := by
      rw [get_run_of_ne p checked (.transfer s source slot) hne.symm, hf]
    have hg' : (p.run checked (.transfer s source slot)).get slot = .ok (g.copyFrom (s.effect f)).1 := by
      rw [hrun, get_put]
      exact if_pos rfl
    have hagain := result_transfer hs hf' hg' checked
    rw [Fact.copyFrom_copyFrom] at hagain
    exact ⟨hagain, (run_of_result hagain).trans (put_of_get hg')⟩

end Pool

def Stmt.doubling : Stmt :=
  .assign (.var (.int "x")) (.binary (.arithmetic .mul) (.var (.int "x")) (.literal (.int 2)))

namespace Pool

def unequal : Pool :=
  (empty.put "f" (.ofList [(.int "x", .const 21), (.int "y", .undef)])).put "g"
    (.ofList [(.int "y", .const 7), (.int "z", .const 3)])

theorem unequal_updates : Stmt.doubling.IsProper ∧ ∃ f g g' h,
    unequal.get "f" = .ok f ∧ unequal.get "g" = .ok g ∧
    Stmt.doubling.Updates f g g' true ∧ (unequal.run true (.transfer .doubling "f" "g")).get "g" = .ok g' ∧
    g'.entries = [(.int "y", .undef), (.int "z", .const 3), (.int "x", .const 42)] ∧
    (unequal.run true (.transfer .doubling "f" "g")).result true (.transfer .doubling "f" "g") =
      .ok (g', some false) ∧
    Stmt.doubling.Updates f f h true ∧ h.entries = [(.int "x", .const 42), (.int "y", .undef)] := by
  have hs : Stmt.doubling.IsProper := by decide
  have hf : unequal.get "f" = .ok (.ofList [(.int "x", .const 21), (.int "y", .undef)]) := rfl
  have hg : unequal.get "g" = .ok (.ofList [(.int "y", .const 7), (.int "z", .const 3)]) := rfl
  obtain ⟨g', changed, hresult, hupdates, hget, hagain⟩ := transfer_updates hs hf hg true
  obtain ⟨h, changed', hresult', hupdates', -, -⟩ := transfer_updates hs hf hf true
  have hslot := hget "g"
  rw [if_pos rfl] at hslot
  cases hresult
  cases hresult'
  exact ⟨hs, _, _, _, _, hf, hg, hupdates, hslot, rfl, (hagain (by decide)).1, hupdates', rfl⟩

end Pool

end ConstantFlow
