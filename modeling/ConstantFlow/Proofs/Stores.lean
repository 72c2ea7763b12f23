import ConstantFlow.Proofs.Growth
import ConstantFlow.Proofs.InPlace

namespace ConstantFlow

namespace Work

variable {α β : Type} {I : Ledger → Prop} {w : Work α} {k : α → Work β}

def Keeps (I : Ledger → Prop) (w : Work α) : Prop := ∀ l, I l → I (w.on l).2

theorem Keeps.pure (a : α) : Keeps I (Pure.pure a : Work α) := fun _ h ↦ h

theorem Keeps.throw (e : Stop) : Keeps I (MonadExcept.throw e : Work α) := fun _ h ↦ h

theorem Keeps.read (slot : String) : Keeps I (read slot) := fun _ h ↦ h

theorem Keeps.bind (hw : Keeps I w) (hk : ∀ a, Keeps I (k a)) : Keeps I (w >>= k) := by
  intro l hl
  have hrest := hw l hl
  rw [on_bind]
  generalize w.on l = r at hrest ⊢
  obtain ⟨e | a, l'⟩ := r
  · exact hrest
  · exact hk a l' hrest

theorem Keeps.map (g : α → β) (hw : Keeps I w) : Keeps I (g <$> w) := by
  intro l hl
  rw [on_map]
  exact hw l hl

theorem Keeps.foldlM {step : β → α → Work β} (h : ∀ b a, Keeps I (step b a)) (ks : List α) (b : β) :
    Keeps I (ks.foldlM step b) := by
  induction ks generalizing b with
  | nil => exact .pure b
  | cons a ks ih =>
    rw [List.foldlM_cons]
    exact (h b a).bind ih

theorem Keeps.raise {slot : String} {x : Var} {v : Value} (h : Keeps I (write slot x v)) : Keeps I (raise slot x v) := by
  refine (Keeps.read slot).bind fun f ↦ ?_
  split
  · exact h
  · exact .throw _

theorem Keeps.spread {source : Work Fact} {store : Var → Value → Work Bool} (hsource : Keeps I source)
    (hstore : ∀ x v, Keeps I (store x v)) (slot : String) (op : Value → Value → Value) :
    Keeps I (spread source slot store op) := by
  refine hsource.bind fun f ↦ .foldlM (fun b x ↦ hsource.bind fun g ↦ ?_) f.keys false
  refine (Keeps.read slot).bind fun t ↦ (hstore x _).bind fun b' ↦ hsource.bind fun g' ↦ ?_
  split
  · exact .pure _
  · exact .throw _

/-- All commands but a copy work by single writes, so an invariant of these is one of the commands. -/
theorem Keeps.perform (checked : Bool) (c : Command) (hwrite : ∀ x v, Keeps I (write c.slot x v))
    (hcopy : ∀ source slot, c = .copy source slot → Keeps I (perform checked c)) : Keeps I (perform checked c) := by
  cases c with
  | update slot x v => exact (hwrite x v).map some
  | raise slot x v => exact (hwrite x v).raise.map some
  | copy source slot => exact hcopy source slot rfl
  | copyFrom slot source =>
    exact (Keeps.read slot).bind fun _ ↦ (Keeps.read source).bind fun _ ↦
      (Keeps.spread (.read source) hwrite slot _).map some
  | meet source slot =>
    have hstore (x v) : Keeps I ((if checked then Work.raise slot else write slot) x v) := by
      cases checked with
      | false => exact hwrite x v
      | true => exact (hwrite x v).raise
    exact (Keeps.read source).bind fun _ ↦ (Keeps.read slot).bind fun _ ↦
      (Keeps.spread (.read source) hstore slot _).bind fun _ ↦ .pure none
  | transfer s source slot =>
    refine (Keeps.read source).bind fun f ↦ (Keeps.read slot).bind fun _ ↦ ?_
    split
    · exact .throw _
    · exact (Keeps.spread (.pure _) hwrite slot _).map some

end Work

theorem eraseDups_of_nodup {α : Type} [DecidableEq α] {l : List α} (h : l.Nodup) : l.eraseDups = l := by
  induction l with
  | nil => rfl
  | cons a l ih =>
    obtain ⟨ha, hl⟩ := List.nodup_cons.1 h
    have hrest : l.filter (fun b ↦ !b == a) = l := by
      apply List.filter_eq_self.2
      intro b hb
      have hne : b ≠ a := fun he ↦ ha (he ▸ hb)
      simp [hne]
    rw [List.eraseDups_cons, hrest, ih hl]

def Pool.runAll (p : Pool) (checked : Bool) (cs : List Command) : Pool := cs.foldl (fun p c ↦ p.run checked c) p

namespace Ledger

def after (checked : Bool) (l : Ledger) (c : Command) : Ledger := ((Work.perform checked c).on l).2

def afterAll (checked : Bool) (l : Ledger) (cs : List Command) : Ledger := cs.foldl (after checked) l

def written (l : Ledger) (slot : String) : List Var := (l.writes.filter (·.1 = slot)).map Prod.snd

theorem pool_afterAll (checked : Bool) (l : Ledger) (cs : List Command) :
    (l.afterAll checked cs).pool = l.pool.runAll checked cs := by
  induction cs generalizing l with
  | nil => rfl
  | cons c cs ih =>
    rw [afterAll, List.foldl_cons, ← afterAll, ih, Pool.runAll, Pool.runAll, List.foldl_cons, after,
      (Work.agrees checked c l).pool]

/-- The fact in a slot has the variables `ks`, and then those that have been written, each where it first came. -/
def InOrder (slot : String) (ks : List Var) (l : Ledger) : Prop :=
  ∃ g, l.pool.get slot = .ok g ∧ g.keys = (ks ++ l.written slot).eraseDups

theorem keeps_write (slot : String) (ks : List Var) (other : String) (x : Var) (v : Value) :
    Work.Keeps (InOrder slot ks) (Work.write other x v) := by
  intro l ⟨g, hg, hkeys⟩
  cases h : l.pool.get other with
  | error e =>
    rw [Work.on_write_error h]
    exact ⟨g, hg, hkeys⟩
  | ok f =>
    rw [Work.on_write h]
    by_cases hslot : other = slot
    · subst hslot
      obtain rfl : f = g := Except.ok.inj (h.symm.trans hg)
      refine ⟨f.set x v, ?_, ?_⟩
      · rw [Pool.get_put, if_pos rfl]
      · have hwritten : written ⟨l.pool.put other (f.set x v), l.writes ++ [(other, x)]⟩ other =
            l.written other ++ [x] := by simp [written]
        rw [hwritten, ← List.append_assoc, eraseDups_concat, Fact.keys_set, hkeys]
        simp only [List.mem_eraseDups]
    · refine ⟨g, ?_, ?_⟩
      · rw [Pool.get_put, if_neg hslot, hg]
      · have hwritten : written ⟨l.pool.put other (f.set x v), l.writes ++ [(other, x)]⟩ slot = l.written slot := by
          simp [written, hslot]
        rw [hwritten, hkeys]

end Ledger

namespace Command

/-- Puts a new fact into a slot, where the other commands go on with the fact that is there. -/
def Renews (c : Command) (slot : String) : Prop := ∃ source, c = .copy source slot

def Rises : Command → Prop
  | raise .. | meet .. => True
  | _ => False

def Reports : Command → Prop
  | copy .. | meet .. => False
  | _ => True

def IsProper : Command → Prop
  | transfer s _ _ => s.IsProper
  | _ => True

def uses : Command → List String
  | update slot _ _ | raise slot _ _ => [slot]
  | copy source _ => [source]
  | copyFrom slot source => [slot, source]
  | meet source slot | transfer _ source slot => [source, slot]

end Command

namespace Ledger

variable {slot : String} {ks : List Var} {checked : Bool} {c : Command} {l : Ledger}

theorem keeps_perform (checked : Bool) (hc : ¬ c.Renews slot) :
    Work.Keeps (InOrder slot ks) (Work.perform checked c) := by
  refine .perform checked c (fun x v ↦ keeps_write slot ks c.slot x v) ?_
  rintro source other rfl l ⟨g, hg, hkeys⟩
  have hne : other ≠ slot := fun he ↦ hc ⟨source, by rw [he]⟩
  cases h : l.pool.get source with
  | error e =>
    rw [Work.perform, Work.on_bind, Work.on_read_error h]
    exact ⟨g, hg, hkeys⟩
  | ok f =>
    rw [Work.perform, Work.on_bind, Work.on_read h]
    exact ⟨g, (Pool.get_put ..).trans ((if_neg hne).trans hg), hkeys⟩

theorem inOrder_afterAll {cs : List Command} (h : InOrder slot ks l) (hcs : ∀ c ∈ cs, ¬ c.Renews slot) :
    InOrder slot ks (l.afterAll checked cs) := by
  induction cs generalizing l with
  | nil => exact h
  | cons c cs ih =>
    obtain ⟨hc, hcs⟩ := List.forall_mem_cons.1 hcs
    exact ih (keeps_perform checked hc l h) hcs

end Ledger

namespace Pool

variable {p : Pool} {checked : Bool} {c : Command} {cs : List Command} {slot : String} {f : Fact}

theorem run_rises (checked : Bool) (hf : p.get slot = .ok f) (hc : c.slot = slot → c.Rises) :
    ∃ f', (p.run checked c).get slot = .ok f' ∧ f ≤ f' := by
  by_cases hslot : c.slot = slot
  · subst hslot
    cases c with
    | raise slot x v =>
      by_cases h : f.get x ≤ v
      · have hresult : p.result checked (.raise slot x v) = _ := result_raise hf checked h
        exact ⟨f.set x v, get_run_of_result hresult, Fact.le_set h⟩
      · have hresult : p.result checked (.raise slot x v) = _ := result_raise_error hf checked h
        exact ⟨f, by rw [run_of_result_error hresult, hf], le_rfl⟩
    | meet source slot =>
      obtain ⟨f', hf', hbounds⟩ := run_meet hf checked source
      exact ⟨f', hf', ((hbounds f').1 le_rfl).1⟩
    | _ => exact (hc rfl).elim
  · exact ⟨f, by rw [get_run_of_ne p checked c hslot, hf], le_rfl⟩

theorem runAll_rises (hf : p.get slot = .ok f) (hcs : ∀ c ∈ cs, c.slot = slot → c.Rises) :
    ∃ f', (p.runAll checked cs).get slot = .ok f' ∧ f ≤ f' := by
  induction cs generalizing p f with
  | nil => exact ⟨f, hf, le_rfl⟩
  | cons c cs ih =>
    obtain ⟨hc, hcs⟩ := List.forall_mem_cons.1 hcs
    obtain ⟨f₁, hf₁, hle₁⟩ := run_rises checked hf hc
    obtain ⟨f', hf', hle'⟩ := ih hf₁ hcs
    exact ⟨f', hf', hle₁.trans hle'⟩

theorem result_of_uses (hc : c.IsProper) (huses : ∀ slot ∈ c.uses, ∃ f, p.get slot = .ok f) :
    (∃ r, p.result checked c = .ok r) ∨
      ∃ slot x v f, c = .raise slot x v ∧ p.get slot = .ok f ∧ ¬ f.get x ≤ v := by
  cases c with
  | update slot x v =>
    obtain ⟨f, hf⟩ := huses slot (by simp [Command.uses])
    exact .inl ⟨_, result_update hf checked x v⟩
  | raise slot x v =>
    obtain ⟨f, hf⟩ := huses slot (by simp [Command.uses])
    by_cases h : f.get x ≤ v
    · exact .inl ⟨_, result_raise hf checked h⟩
    · exact .inr ⟨slot, x, v, f, rfl, hf, h⟩
  | copy source slot =>
    obtain ⟨f, hf⟩ := huses source (by simp [Command.uses])
    exact .inl ⟨_, result_copy hf checked slot⟩
  | copyFrom slot source =>
    obtain ⟨t, ht⟩ := huses slot (by simp [Command.uses])
    obtain ⟨f, hf⟩ := huses source (by simp [Command.uses])
    exact .inl ⟨_, result_copyFrom ht hf checked⟩
  | meet source slot =>
    obtain ⟨f, hf⟩ := huses source (by simp [Command.uses])
    obtain ⟨t, ht⟩ := huses slot (by simp [Command.uses])
    exact .inl ⟨_, result_meet hf ht checked⟩
  | transfer s source slot =>
    obtain ⟨f, hf⟩ := huses source (by simp [Command.uses])
    obtain ⟨t, ht⟩ := huses slot (by simp [Command.uses])
    exact .inl ⟨_, result_transfer hc hf ht checked⟩

/-- A command that has all its facts, and no definition that cannot be evaluated, fails only as an increase that
would be none. -/
theorem result_eq_error (hc : c.IsProper) (huses : ∀ slot ∈ c.uses, ∃ f, p.get slot = .ok f) :
    (∃ e, p.result checked c = .error e) ↔
      ∃ slot x v f, c = .raise slot x v ∧ p.get slot = .ok f ∧ ¬ f.get x ≤ v := by
  constructor
  · intro ⟨e, he⟩
    obtain ⟨r, hr⟩ | hraise := result_of_uses (p := p) hc huses
    · cases hr.symm.trans he
    · exact hraise
  · intro ⟨slot, x, v, f, hc, hf, h⟩
    rw [hc, result_raise_error hf checked h]
    exact ⟨_, rfl⟩

theorem result_reports {f' : Fact} {changed : Option Bool} (hc : c.Reports) (hf : p.get c.slot = .ok f)
    (hr : p.result checked c = .ok (f', changed)) : changed = some !f.agrees f' := by
  cases c with
  | update slot x v =>
    cases (result_update hf checked x v).symm.trans hr
    rw [Fact.agrees_set, decide_not]
  | raise slot x v =>
    by_cases h : f.get x ≤ v
    · cases (result_raise hf checked h).symm.trans hr
      rw [Fact.agrees_set, decide_not]
    · cases (result_raise_error hf checked h).symm.trans hr
  | copyFrom slot source =>
    cases hg : p.get source with
    | ok g =>
      cases (result_copyFrom hf hg checked).symm.trans hr
      rw [Fact.agrees_copyFrom, Bool.not_not]
    | error e =>
      rw [Command.slot] at hf
      rw [result, hf, hg] at hr
      cases hr
  | transfer s source slot =>
    cases hg : p.get source with
    | ok g =>
      cases hs : s.refusal? with
      | none =>
        cases (result_transfer (Stmt.refusal?_eq_none.1 hs) hg hf checked).symm.trans hr
        rw [Fact.agrees_copyFrom, Bool.not_not]
      | some e => cases (result_transfer_error hg hf hs checked).symm.trans hr
    | error e =>
      rw [result, hg] at hr
      cases hr
  | _ => exact hc.elim

def performed (p : Pool) (checked : Bool) (cs : List Command) : Ledger := Ledger.afterAll checked ⟨p, []⟩ cs

def outcome (p : Pool) (checked : Bool) (c : Command) : Except Stop (Option Bool) :=
  ((Work.perform checked c).on ⟨p, []⟩).1

/-- What the facts of a pool keep, whatever commands are carried out on them in place. -/
structure KeepsFacts (p : Pool) (checked : Bool) : Prop where
  in_place : ∀ cs, (p.performed checked cs).pool = p.runAll checked cs
  outcome : ∀ c, p.outcome checked c = ((p.result checked c).map Prod.snd).mapError .refused
  keys : ∀ cs slot f, p.get slot = .ok f → (∀ c ∈ cs, ¬ c.Renews slot) →
    ∃ f', (p.performed checked cs).pool.get slot = .ok f' ∧ f'.keys.Nodup ∧ f.keys <+: f'.keys ∧
      f'.keys = (f.keys ++ (p.performed checked cs).written slot).eraseDups
  copied : ∀ source slot f, p.get source = .ok f →
    (p.performed checked [.copy source slot]).pool.get slot = .ok f
  fails_iff : ∀ c : Command, c.IsProper → (∀ slot ∈ c.uses, ∃ f, p.get slot = .ok f) →
    ((∃ e, p.outcome checked c = .error e) ↔
      ∃ slot x v f, c = .raise slot x v ∧ p.get slot = .ok f ∧ ¬ f.get x ≤ v)
  failed : ∀ c e, p.outcome checked c = .error e → (p.performed checked [c]).pool = p
  rises : ∀ cs slot f, p.get slot = .ok f → (∀ c ∈ cs, c.slot = slot → c.Rises) →
    ∃ f', (p.performed checked cs).pool.get slot = .ok f' ∧ f.leq f' = true
  changed : ∀ (c : Command) f o, c.Reports → p.get c.slot = .ok f → p.outcome checked c = .ok o →
    ∃ f', (p.performed checked [c]).pool.get c.slot = .ok f' ∧ o = some !f.agrees f'

theorem pool_performed (p : Pool) (checked : Bool) (cs : List Command) :
    (p.performed checked cs).pool = p.runAll checked cs := Ledger.pool_afterAll checked ⟨p, []⟩ cs

theorem outcome_eq (p : Pool) (checked : Bool) (c : Command) :
    p.outcome checked c = ((p.result checked c).map Prod.snd).mapError .refused :=
  (Work.agrees checked c ⟨p, []⟩).outcome

theorem result_of_outcome {o : Option Bool} (h : p.outcome checked c = .ok o) :
    ∃ f, p.result checked c = .ok (f, o) := by
  rw [outcome_eq] at h
  cases hr : p.result checked c with
  | ok r =>
    rw [hr] at h
    cases h
    exact ⟨r.1, rfl⟩
  | error e =>
    rw [hr] at h
    cases h

theorem result_of_outcome_error {e : Stop} (h : p.outcome checked c = .error e) :
    ∃ e', p.result checked c = .error e' := by
  rw [outcome_eq] at h
  cases hr : p.result checked c with
  | ok r =>
    rw [hr] at h
    cases h
  | error e' => exact ⟨e', rfl⟩

theorem outcome_of_result_error {e : CommandError} (h : p.result checked c = .error e) :
    p.outcome checked c = .error (.refused e) := by
  rw [outcome_eq, h]
  rfl

theorem keys_performed (hf : p.get slot = .ok f) (hcs : ∀ c ∈ cs, ¬ c.Renews slot) :
    ∃ f', (p.performed checked cs).pool.get slot = .ok f' ∧
      f'.keys = (f.keys ++ (p.performed checked cs).written slot).eraseDups := by
  have hstart : Ledger.InOrder slot f.keys ⟨p, []⟩ := by
    refine ⟨f, hf, ?_⟩
    rw [Ledger.written, List.filter_nil, List.map_nil, List.append_nil]
    exact (eraseDups_of_nodup f.nodup_keys).symm
  exact Ledger.inOrder_afterAll hstart hcs

/-- Whatever commands are carried out in place: keys come in the order of their first writes, only an increase that
would be none fails, and then nothing has changed, meets and increases only take a fact up, and what is reported as a
change is one. -/
theorem commands_keep_facts (p : Pool) (checked : Bool) : p.KeepsFacts checked where
  in_place cs := pool_performed p checked cs
  outcome c := outcome_eq p checked c
  keys cs slot f hf hcs := by
    obtain ⟨f', hf', hkeys⟩ := keys_performed hf hcs
    refine ⟨f', hf', f'.nodup_keys, ?_, hkeys⟩
    rw [hkeys, List.eraseDups_append, eraseDups_of_nodup f.nodup_keys]
    exact List.prefix_append _ _
  copied source slot f hf := by
    rw [pool_performed]
    exact get_run_of_result (result_copy hf checked slot)
  fails_iff c hc huses := by
    rw [← result_eq_error hc huses]
    constructor
    · intro ⟨e, he⟩
      exact result_of_outcome_error he
    · intro ⟨e, he⟩
      exact ⟨_, outcome_of_result_error he⟩
  failed c e he := by
    obtain ⟨e', he'⟩ := result_of_outcome_error he
    rw [pool_performed]
    exact run_of_result_error he'
  rises cs slot f hf hcs := by
    obtain ⟨f', hf', hle⟩ := runAll_rises hf hcs
    rw [pool_performed]
    exact ⟨f', hf', Fact.leq_iff.2 hle⟩
  changed c f o hc hf ho := by
    obtain ⟨f', hr⟩ := result_of_outcome ho
    rw [pool_performed]
    exact ⟨f', get_run_of_result hr, result_reports hc hf hr⟩

def risingCommands : List Command :=
  [.meet "f" "g", .raise "g" (.int "z") (.const 4), .meet "g" "g", .raise "g" (.int "z") .nac]

theorem unequal_keeps_facts : unequal.KeepsFacts true ∧ ∃ g g',
    unequal.get "g" = .ok g ∧ (unequal.performed true risingCommands).pool.get "g" = .ok g' ∧
    g'.keys = [.int "y", .int "z", .int "x"] ∧ g.leq g' = true ∧
    (∃ e, unequal.outcome true (.raise "g" (.int "z") (.const 4)) = .error e) ∧
    (unequal.performed true [.raise "g" (.int "z") (.const 4)]).pool = unequal ∧
    unequal.outcome true (.copyFrom "f" "f") = .ok (some false) := by
  have h : unequal.KeepsFacts true := commands_keep_facts unequal true
  have hg : unequal.get "g" = .ok (.ofList [(.int "y", .const 7), (.int "z", .const 3)]) := rfl
  have hrenews : ∀ c ∈ risingCommands, ¬ c.Renews "g" := by
    simp [risingCommands, Command.Renews]
  have hrises : ∀ c ∈ risingCommands, c.slot = "g" → c.Rises := by
    simp [risingCommands, Command.Rises]
  obtain ⟨g', hg', -, -, hkeys⟩ := h.keys risingCommands "g" _ hg hrenews
  obtain ⟨g'', hg'', hleq⟩ := h.rises risingCommands "g" _ hg hrises
  obtain rfl : g' = g'' := Except.ok.inj (hg'.symm.trans hg'')
  have hwritten : (unequal.performed true risingCommands).written "g" =
      [.int "x", .int "y", .int "y", .int "z", .int "x", .int "z"] := by decide +kernel
  rw [hwritten] at hkeys
  have hfails : ∃ e, unequal.outcome true (.raise "g" (.int "z") (.const 4)) = .error e := by
    refine (h.fails_iff (.raise "g" (.int "z") (.const 4)) trivial ?_).2 ⟨"g", _, _, _, rfl, hg, by decide⟩
    intro slot hslot
    rw [List.mem_singleton.1 hslot]
    exact ⟨_, hg⟩
  obtain ⟨e, he⟩ := hfails
  exact ⟨h, _, g', hg, hg', hkeys, hleq, ⟨e, he⟩, h.failed _ e he, rfl⟩

end Pool

end ConstantFlow
