import ConstantFlow.Config
import ConstantFlow.Table
import Mathlib.Logic.Basic

namespace ConstantFlow

theorem lookup_eq_readAt {κ ν : Type} [DecidableEq κ] (k : κ) (l : List (κ × ν)) : l.lookup k = readAt k l := by
  induction l with
  | nil => rfl
  | cons e l ih =>
    obtain ⟨j, v⟩ := e
    rw [List.lookup_cons, readAt, ih]
    by_cases h : j = k
    · simp [h]
    · simp [h, beq_eq_false_iff_ne.2 (Ne.symm h)]

theorem Table.lookup_entries {κ ν : Type} [DecidableEq κ] (t : Table κ ν) (k : κ) : t.entries.lookup k = t.get? k :=
  lookup_eq_readAt k t.entries

theorem Strategy.ofName?_eq_some {x : String} {st : Strategy} : ofName? x = some st ↔ x.toLower = st.name := by
  constructor
  · intro h
    unfold ofName? at h
    have hname := List.find?_some h
    exact (beq_iff_eq.1 hname).symm
  · intro h
    rw [ofName?, h]
    cases st <;> rfl

namespace Setting

def whole? : Setting → Option Int
  | datum (.int n) => some n
  | datum (.truth b) => some (if b then 1 else 0)
  | _ => none

def IsBound (s : Setting) : Prop := ∃ n, s.whole? = some n ∧ 0 < n

instance (s : Setting) : Decidable s.IsBound :=
  decidable_of_iff (s.whole?.any (fun n ↦ 0 < n) = true) <| by
    rw [IsBound, Option.any_eq_true]
    simp only [decide_eq_true_iff]

/-- A strategy is named by itself, and by its name in any letter case. -/
def Names (s : Setting) (st : Strategy) : Prop := s = strategy st ∨ ∃ x, s = datum (.text x) ∧ x.toLower = st.name

def resolve : Setting → Except ConfigError Setting
  | datum (.text x) =>
    match Strategy.ofName? x with
    | some st => .ok (strategy st)
    | none => .error (.badStrategy (datum (.text x)))
  | s => .ok s

variable {s : Setting} {st : Strategy}

theorem Names.resolve (h : s.Names st) : s.resolve = .ok (strategy st) := by
  obtain rfl | ⟨x, rfl, hx⟩ := h
  · rfl
  · rw [Setting.resolve, Strategy.ofName?_eq_some.2 hx]

theorem Names.unique {st' : Strategy} (h : s.Names st) (h' : s.Names st') : st = st' :=
  strategy.inj (Except.ok.inj (h.resolve.symm.trans h'.resolve))

theorem resolve_unnamed {x : String} (h : ∀ st : Strategy, x.toLower ≠ st.name) :
    (datum (.text x)).resolve = .error (.badStrategy (datum (.text x))) := by
  have hnone : Strategy.ofName? x = none :=
    Option.eq_none_iff_forall_ne_some.2 fun st hst ↦ h st (Strategy.ofName?_eq_some.1 hst)
  rw [resolve, hnone]

theorem exists_resolve (h : ∀ x, s = datum (.text x) → ∃ st : Strategy, x.toLower = st.name) :
    ∃ s', s.resolve = .ok s' := by
  unfold resolve
  split
  · next x =>
    obtain ⟨st, hst⟩ := h x rfl
    exact ⟨strategy st, by rw [Strategy.ofName?_eq_some.2 hst]⟩
  · exact ⟨s, rfl⟩

theorem resolve_of_ne_text (h : ∀ x, s ≠ datum (.text x)) : s.resolve = .ok s := by
  unfold resolve
  split
  · next x => exact absurd rfl (h x)
  · rfl

end Setting

theorem Bound.ofSetting?_eq_some {s : Setting} {b : Bound} : ofSetting? s = some b ↔ s = .datum b.datum := by
  constructor
  · intro h
    unfold ofSetting? at h
    split at h
    · next n =>
      split at h
      · next hn =>
        cases h
        rw [datum, Int.toNat_of_nonneg (by omega)]
      · cases h
    · cases h
      rfl
    · cases h
  · rintro rfl
    cases b with
    | count n hn => exact dif_pos hn
    | truth => rfl

theorem Bound.datum_injective : Function.Injective datum := by
  intro b b' h
  have hb : ofSetting? (.datum b'.datum) = some b := ofSetting?_eq_some.2 (congrArg Setting.datum h.symm)
  exact Option.some.inj (hb.symm.trans (ofSetting?_eq_some.2 rfl))

theorem Setting.isBound_iff {s : Setting} : s.IsBound ↔ ∃ b : Bound, s = .datum b.datum := by
  constructor
  · intro ⟨n, hn, hpos⟩
    unfold whole? at hn
    split at hn
    · cases hn
      refine ⟨.count n.toNat (by omega), ?_⟩
      rw [Bound.datum, Int.toNat_of_nonneg (by omega)]
    · next b =>
      cases b with
      | true => exact ⟨.truth, rfl⟩
      | false =>
        cases hn
        cases hpos
    · cases hn
  · rintro ⟨b, rfl⟩
    cases b with
    | count n hn => exact ⟨n, rfl, Int.natCast_pos.2 hn⟩
    | truth => exact ⟨1, rfl, by decide⟩

abbrev Settings := Table String Setting

def Settings.Known (t : Settings) : Prop := ∀ k ∈ t.keys, k ∈ Config.optionNames

instance (t : Settings) : Decidable t.Known := inferInstanceAs (Decidable (∀ k ∈ t.keys, k ∈ Config.optionNames))

/-- The four options, with any values. -/
structure Fields where
  analysisId : Setting
  maxIterations : Setting
  strategy : Setting
  checkInvariants : Setting

def Config.fields (c : Config) : Fields where
  analysisId := c.analysisId
  maxIterations := .datum c.maxIterations.datum
  strategy := .strategy c.strategy
  checkInvariants := c.checkInvariants

theorem Config.fields_injective : Function.Injective Config.fields := by
  intro c c' h
  obtain ⟨id, b, st, invariants⟩ := c
  obtain ⟨id', b', st', invariants'⟩ := c'
  simp only [fields, Fields.mk.injEq, Setting.datum.injEq, Setting.strategy.injEq] at h
  obtain ⟨rfl, hb, rfl, rfl⟩ := h
  rw [Bound.datum_injective hb]

namespace Fields

def assign (f : Fields) (t : Settings) : Fields where
  analysisId := (t.get? "analysis_id").getD f.analysisId
  maxIterations := (t.get? "max_iterations").getD f.maxIterations
  strategy := (t.get? "strategy").getD f.strategy
  checkInvariants := (t.get? "check_invariants").getD f.checkInvariants

def check (f : Fields) : Except ConfigError Fields :=
  if f.maxIterations.IsBound then
    match f.strategy with
    | .strategy _ => .ok f
    | s => .error (.badStrategy s)
  else .error (.badBound f.maxIterations)

def make (f : Fields) (t : Settings) : Except RevisionError Fields :=
  if t.Known then (f.assign t).check.mapError .unfit else .error .noSuchOption

/-- Options made from a mapping, after a look at its names and at a strategy that is a text. -/
def load (t : Settings) : Except RevisionError Fields :=
  if t.Known then
    match t.get? "strategy" with
    | some s => do Config.default.fields.make (t.insert "strategy" (← s.resolve.mapError .unfit))
    | none => Config.default.fields.make t
  else .error (.unfit (.unknownOptions (Config.unknownNames t.entries)))

variable {f : Fields} {t : Settings} {s : Setting}

theorem check_of_strategy {st : Strategy} (h : f.maxIterations.IsBound) (hst : f.strategy = .strategy st) :
    f.check = .ok f := by
  rw [check, if_pos h, hst]

theorem check_of_ne_strategy (h : f.maxIterations.IsBound) (hne : ∀ st, f.strategy ≠ .strategy st) :
    f.check = .error (.badStrategy f.strategy) := by
  rw [check, if_pos h]
  split
  · next st hst => exact absurd hst (hne st)
  · rfl

theorem check_of_not_isBound (h : ¬ f.maxIterations.IsBound) : f.check = .error (.badBound f.maxIterations) :=
  if_neg h

theorem strategy_assign (h : t.get? "strategy" = some s) : (f.assign t).strategy = s := by
  rw [assign, h, Option.getD_some]

theorem maxIterations_assign (h : t.get? "max_iterations" = some s) : (f.assign t).maxIterations = s := by
  rw [assign, h, Option.getD_some]

theorem assign_insert : f.assign (t.insert "strategy" s) = { f.assign t with strategy := s } := by
  simp [assign, Table.get?_insert]

theorem make_of_known (h : t.Known) : f.make t = (f.assign t).check.mapError .unfit := if_pos h

theorem known_insert (h : t.Known) : Settings.Known (t.insert "strategy" s) := by
  intro k hk
  rw [Table.keys_insert] at hk
  split at hk
  · exact h k hk
  · obtain hk | hk := List.mem_append.1 hk
    · exact h k hk
    · exact List.mem_singleton.1 hk ▸ by decide

theorem load_of_known (h : t.Known) :
    load t = (do
      let s ← (Config.default.fields.assign t).strategy.resolve
      check { Config.default.fields.assign t with strategy := s }).mapError .unfit := by
  rw [load, if_pos h, assign]
  cases hs : t.get? "strategy" with
  | none =>
    dsimp only
    rw [make_of_known h, assign, hs]
    rfl
  | some s =>
    dsimp only [Option.getD_some]
    cases s.resolve with
    | error e => rfl
    | ok s' =>
      have hmake : Config.default.fields.make (t.insert "strategy" s') =
          (check { Config.default.fields.assign t with strategy := s' }).mapError .unfit := by
        rw [make_of_known (known_insert h), assign_insert]
      exact hmake

end Fields

namespace Config

variable {c : Config} {t : Settings}

theorem unknownNames_eq_nil : unknownNames t.entries = [] ↔ t.Known := by
  rw [unknownNames, ← List.length_eq_zero_iff, List.length_mergeSort, List.length_eq_zero_iff, List.filter_eq_nil_iff]
  simp [Settings.Known, Table.keys]

theorem boundFrom_of_datum {b b' : Bound} {o : Option Setting} (h : o.getD (.datum b.datum) = .datum b'.datum) :
    boundFrom b o = .ok b' := by
  cases o with
  | none => exact congrArg Except.ok (Bound.datum_injective (Setting.datum.inj h))
  | some s =>
    have hsome : Bound.ofSetting? s = some b' := Bound.ofSetting?_eq_some.2 h
    rw [boundFrom, hsome]

theorem boundFrom_of_not_isBound {b : Bound} {o : Option Setting} (h : ¬ (o.getD (.datum b.datum)).IsBound) :
    boundFrom b o = .error (.badBound (o.getD (.datum b.datum))) := by
  cases o with
  | none => exact absurd (Setting.isBound_iff.2 ⟨b, rfl⟩) h
  | some s =>
    have hnone : Bound.ofSetting? s = none :=
      Option.eq_none_iff_forall_ne_some.2 fun b' hb' ↦ h (Setting.isBound_iff.2 ⟨b', Bound.ofSetting?_eq_some.1 hb'⟩)
    rw [boundFrom, hnone]
    rfl

theorem strategyFrom_eq (st : Strategy) (o : Option Setting) :
    strategyFrom st o = match o.getD (.strategy st) with
      | .strategy st' => .ok st'
      | s => .error (.badStrategy s) := by
  cases o with
  | none => rfl
  | some s => cases s <;> rfl

theorem map_assign (c : Config) (t : Settings) : (c.assign t.entries).map fields = (c.fields.assign t).check := by
  simp only [assign, Table.lookup_entries]
  by_cases h : (c.fields.assign t).maxIterations.IsBound
  · obtain ⟨b, hb⟩ := Setting.isBound_iff.1 h
    rw [boundFrom_of_datum hb, strategyFrom_eq]
    cases hs : (c.fields.assign t).strategy with
    | strategy st =>
      have hget : (t.get? "strategy").getD (.strategy c.strategy) = .strategy st := hs
      have hfields : c.fields.assign t = { c.fields.assign t with
          maxIterations := .datum b.datum, strategy := .strategy st } := by rw [← hb, ← hs]
      rw [Fields.check_of_strategy h hs, hget, hfields]
      rfl
    | datum d =>
      have hget : (t.get? "strategy").getD (.strategy c.strategy) = .datum d := hs
      rw [Fields.check_of_ne_strategy h (by rw [hs]; nofun), hs, hget]
      rfl
  · rw [Fields.check_of_not_isBound h, boundFrom_of_not_isBound h]
    rfl

theorem map_revise (c : Config) (t : Settings) : (c.revise t.entries).map fields = c.fields.make t := by
  rw [revise, Fields.make, if_congr unknownNames_eq_nil rfl rfl, ← map_assign]
  split
  · cases c.assign t.entries <;> rfl
  · rfl

theorem resolveStrategy_eq (k : String) (s : Setting) :
    resolveStrategy (k, s) = if k = "strategy" then s.resolve.map fun s' ↦ (k, s') else .ok (k, s) := by
  unfold resolveStrategy
  split
  · next x he =>
    cases he
    rw [if_pos rfl, Setting.resolve]
    cases Strategy.ofName? x <;> rfl
  · next h =>
    split
    · next hk =>
      subst hk
      rw [Setting.resolve_of_ne_text fun x hx ↦ h x (by rw [hx])]
      rfl
    · rfl

theorem mapM_resolveStrategy {l : List (String × Setting)} (hl : (l.map Prod.fst).Nodup) :
    l.mapM resolveStrategy = match readAt "strategy" l with
      | some s => s.resolve.map fun s' ↦ writeAt "strategy" s' l
      | none => .ok l := by
  induction l with
  | nil => rfl
  | cons e l ih =>
    obtain ⟨k, s⟩ := e
    obtain ⟨hk, hl⟩ := List.nodup_cons.1 hl
    rw [List.mapM_cons, ih hl, resolveStrategy_eq, readAt]
    by_cases h : k = "strategy"
    · -- keys are distinct, so nothing after this entry is resolved
      subst h
      rw [readAt_eq_none.2 hk, if_pos rfl, if_pos rfl]
      simp only [writeAt, if_pos]
      cases s.resolve <;> rfl
    · rw [if_neg h, if_neg h]
      simp only [writeAt, if_neg h]
      cases readAt "strategy" l with
      | none => rfl
      | some s =>
        dsimp only
        cases s.resolve <;> rfl

theorem map_ofSettings (t : Settings) :
    ((ofSettings t.entries).map fields).mapError .unfit = Fields.load t := by
  have hassign {t' : Settings} (h : t'.Known) :
      ((default.assign t'.entries).map fields).mapError .unfit = default.fields.make t' := by
    rw [map_assign, Fields.make_of_known h]
  unfold ofSettings Fields.load
  by_cases h : t.Known
  · rw [mapM_resolveStrategy t.distinct, if_neg (not_not.2 (unknownNames_eq_nil.2 h)), if_pos h, Table.get?]
    cases readAt "strategy" t.entries with
    | none => exact hassign h
    | some s =>
      dsimp only
      cases s.resolve with
      | error e => rfl
      | ok s' => exact hassign (Fields.known_insert h)
  · rw [if_pos (mt unknownNames_eq_nil.1 h), if_neg h]
    rfl

theorem ofSettings_eq_ok : ofSettings t.entries = .ok c ↔ Fields.load t = .ok c.fields := by
  rw [← map_ofSettings]
  cases ofSettings t.entries with
  | error e => exact ⟨nofun, nofun⟩
  | ok c' =>
    constructor
    · rintro ⟨⟩
      rfl
    · intro h
      exact congrArg Except.ok (fields_injective (Except.ok.inj h))

theorem ofSettings_eq_error {e : ConfigError} :
    ofSettings t.entries = .error e ↔ Fields.load t = .error (.unfit e) := by
  rw [← map_ofSettings]
  cases ofSettings t.entries with
  | ok c => exact ⟨nofun, nofun⟩
  | error e' =>
    constructor
    · rintro ⟨⟩
      rfl
    · rintro ⟨⟩
      rfl

end Config

end ConstantFlow
