import ConstantFlow.Fact.Pool
import ConstantFlow.Proofs.Evaluation

namespace ConstantFlow

namespace Fact

variable {f g t : Fact}

/-- What a fact `t` becomes when `f` is met into it. -/
structure IsJoin (f t t' : Fact) : Prop where
  keys : t'.keys = t.keys ++ f.keys.filter (· ∉ t.keys)
  get : ∀ x, t'.get x = (f.get x).meet (t.get x)
  le_left : f.leq t' = true
  le_right : t.leq t' = true
  least : ∀ g, f.leq g = true → t.leq g = true → t'.leq g = true

theorem merge_le_iff : f.merge t ≤ g ↔ t ≤ g ∧ f ≤ g := by
  constructor
  · intro h
    exact ⟨(le_merge_right f t).trans h, (le_merge_left f t).trans h⟩
  · rintro ⟨ht, hf⟩ x
    change (f.merge t).get x ≤ g.get x
    rw [get_merge]
    exact Value.meet_le (hf x) (ht x)

theorem isJoin_merge (f t : Fact) : f.IsJoin t (f.merge t) where
  keys := keys_foldl_set Value.meet f.nodup_entries t
  get := get_merge f t
  le_left := leq_iff.2 (le_merge_left f t)
  le_right := leq_iff.2 (le_merge_right f t)
  least _ hf ht := leq_iff.2 (merge_le_iff.2 ⟨leq_iff.1 ht, leq_iff.1 hf⟩)

theorem merge_self (f : Fact) : f.merge f = f := foldl_set_eq_self Value.meet sup_idem fun _ h ↦ h

theorem leq_and_leq_iff : f.leq g = true ∧ g.leq f = true ↔ f.agrees g = true := by
  rw [leq_iff, leq_iff, agrees_iff]
  constructor
  · rintro ⟨h, h'⟩
    exact get_eq_of_le_of_le h h'
  · intro h
    exact ⟨le_of_get_eq h, le_of_get_eq h.symm⟩

end Fact

namespace Pool

variable {p : Pool} {source slot : String} {f t : Fact}

theorem result_meet (hf : p.get source = .ok f) (ht : p.get slot = .ok t) (checked : Bool) :
    p.result checked (.meet source slot) = .ok (f.merge t, none) := by
  simp only [result, hf, ht, Fact.meetInto_eq, bind, Except.bind]
  rfl

def meetAll (p : Pool) (checked : Bool) (sources : List String) (slot : String) : Pool :=
  sources.foldl (fun p source ↦ p.run checked (.meet source slot)) p

theorem run_meet (ht : p.get slot = .ok t) (checked : Bool) (source : String) :
    ∃ t', (p.run checked (.meet source slot)).get slot = .ok t' ∧
      ∀ g, t' ≤ g ↔ t ≤ g ∧ ∀ f, p.get source = .ok f → f ≤ g := by
  cases hf : p.get source with
  | ok f =>
    refine ⟨f.merge t, ?_, fun g ↦ ?_⟩
    · rw [run_of_result (result_meet hf ht checked), get_put]
      exact if_pos rfl
    · rw [Fact.merge_le_iff]
      simp
  | error e =>
    have herror : p.result checked (.meet source slot) = .error e := by
      simp only [result, hf, bind, Except.bind]
    refine ⟨t, ?_, fun g ↦ ?_⟩
    · rw [run_of_result_error herror, ht]
    · simp

/-- The bounds of the fact that meets lead to are those of all that was met, the slot's own fact among them. -/
theorem get_meetAll (ht : p.get slot = .ok t) (checked : Bool) (sources : List String) :
    ∃ t', (p.meetAll checked sources slot).get slot = .ok t' ∧
      ∀ g, t' ≤ g ↔ t ≤ g ∧ ∀ source ∈ sources, ∀ f, p.get source = .ok f → f ≤ g := by
  induction sources generalizing p t with
  | nil => exact ⟨t, ht, by simp⟩
  | cons source sources ih =>
    obtain ⟨t₁, ht₁, hle₁⟩ := run_meet ht checked source
    obtain ⟨t', ht', hle'⟩ := ih ht₁
    refine ⟨t', ht', fun g ↦ ?_⟩
    rw [hle', hle₁, List.forall_mem_cons, and_assoc]
    refine and_congr_right fun htg ↦ and_congr_right fun hsource ↦ ?_
    refine forall₂_congr fun other _ ↦ ?_
    -- only the slot itself has changed, and what it holds lies below the bound before and after
    by_cases hs : slot = other
    · subst hs
      have hbelow : t₁ ≤ g := (hle₁ g).2 ⟨htg, hsource⟩
      simp [ht, ht₁, htg, hbelow]
    · have hframe : (p.run checked (.meet source slot)).get other = p.get other :=
        get_run_of_ne p checked (.meet source slot) hs
      rw [hframe]

theorem meetAll_agrees (ht : p.get slot = .ok t) (checked : Bool) {sources sources' : List String}
    (hsame : ∀ s, s ∈ sources ↔ s ∈ sources') :
    ∃ t₁ t₂, (p.meetAll checked sources slot).get slot = .ok t₁ ∧
      (p.meetAll checked sources' slot).get slot = .ok t₂ ∧ t₁.agrees t₂ = true := by
  obtain ⟨t₁, ht₁, hle₁⟩ := get_meetAll ht checked sources
  obtain ⟨t₂, ht₂, hle₂⟩ := get_meetAll ht checked sources'
  have hbounds (g : Fact) : t₁ ≤ g ↔ t₂ ≤ g := by simp only [hle₁, hle₂, hsame]
  have hget := Fact.get_eq_of_le_of_le ((hbounds t₂).2 le_rfl) ((hbounds t₁).1 le_rfl)
  exact ⟨t₁, t₂, ht₁, ht₂, Fact.agrees_iff.2 hget⟩

/-- A meet takes the fact of its slot to the least one above both and leaves the others as they are; a fact met into
itself stays exactly as it was. Facts are ordered by what they read, those that lie below each other being the ones
that agree; so whatever facts are met into a slot, their order and repetition make no difference. -/
theorem meet_isJoin (hf : p.get source = .ok f) (ht : p.get slot = .ok t) :
    (∃ t', f.IsJoin t t' ∧ (source = slot → t' = t) ∧ ∀ checked,
      p.result checked (.meet source slot) = .ok (t', none) ∧
      ∀ other, (p.run checked (.meet source slot)).get other = if slot = other then .ok t' else p.get other) ∧
    ((∀ f g : Fact, f.leq g = true ↔ ∀ x, f.get x ≤ g.get x) ∧ (∀ f : Fact, f.leq f = true) ∧
      (∀ f g h : Fact, f.leq g = true → g.leq h = true → f.leq h = true) ∧
      ∀ f g : Fact, f.leq g = true ∧ g.leq f = true ↔ f.agrees g = true) ∧
    ∀ checked sources sources', (∀ s, s ∈ sources ↔ s ∈ sources') →
      ∃ t₁ t₂, (p.meetAll checked sources slot).get slot = .ok t₁ ∧
        (p.meetAll checked sources' slot).get slot = .ok t₂ ∧ t₁.agrees t₂ = true := by
  refine ⟨⟨f.merge t, Fact.isJoin_merge f t, ?_, ?_⟩, ⟨?_, ?_, ?_, ?_⟩, ?_⟩
  · intro heq
    have hft : f = t := Except.ok.inj (hf.symm.trans (heq ▸ ht))
    rw [hft, Fact.merge_self]
  · intro checked
    have hresult := result_meet hf ht checked
    refine ⟨hresult, fun other ↦ ?_⟩
    rw [run_of_result hresult, get_put]
    rfl
  · intro f g
    exact Fact.leq_iff
  · intro f
    exact Fact.leq_iff.2 le_rfl
  · intro f g h hfg hgh
    exact Fact.leq_iff.2 ((Fact.leq_iff.1 hfg).trans (Fact.leq_iff.1 hgh))
  · intro f g
    exact Fact.leq_and_leq_iff
  · intro checked sources sources' hsame
    exact meetAll_agrees ht checked hsame

def overlapping : Pool :=
  (empty.put "f" (.ofList [(.int "x", .const 1), (.int "y", .undef), (.int "z", .const 5)])).put "t"
    (.ofList [(.int "x", .const 2), (.int "w", .nac)])

theorem overlapping_isJoin : ∃ f t t', overlapping.get "f" = .ok f ∧ overlapping.get "t" = .ok t ∧
    f.IsJoin t t' ∧ (overlapping.run true (.meet "f" "t")).get "t" = .ok t' ∧
    t'.entries = [(.int "x", .nac), (.int "w", .nac), (.int "y", .undef), (.int "z", .const 5)] ∧
    ∃ t₁ t₂, (overlapping.meetAll false ["f", "t", "f"] "t").get "t" = .ok t₁ ∧
      (overlapping.meetAll false ["t", "f"] "t").get "t" = .ok t₂ ∧ t₁.agrees t₂ = true := by
  have hf : overlapping.get "f" = .ok (.ofList [(.int "x", .const 1), (.int "y", .undef), (.int "z", .const 5)]) := rfl
  have ht : overlapping.get "t" = .ok (.ofList [(.int "x", .const 2), (.int "w", .nac)]) := rfl
  obtain ⟨⟨t', hjoin, -, hrun⟩, -, hlists⟩ := meet_isJoin hf ht
  obtain ⟨-, hget⟩ := hrun true
  have hslot := hget "t"
  rw [if_pos rfl] at hslot
  have hentries : ((overlapping.run true (.meet "f" "t")).get "t").toOption.map Fact.entries =
      some [(.int "x", .nac), (.int "w", .nac), (.int "y", .undef), (.int "z", .const 5)] := by decide +kernel
  rw [hslot] at hentries
  have hsame (s : String) : s ∈ ["f", "t", "f"] ↔ s ∈ ["t", "f"] := by simp [or_comm]
  exact ⟨_, _, t', hf, ht, hjoin, hslot, Option.some.inj hentries, hlists false _ _ hsame⟩

end Pool

end ConstantFlow
