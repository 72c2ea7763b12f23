import ConstantFlow.Proofs.Settings
import Mathlib.Tactic.ByContra

namespace ConstantFlow

namespace Settings

variable {t : Settings} {e : ConfigError} {c : Config}

structure Valid (t : Settings) : Prop where
  known : t.Known
  bound : ∀ s, t.get? "max_iterations" = some s → s.IsBound
  strategy : ∀ s, t.get? "strategy" = some s → ∃ st, s.Names st

/-- What is reported of settings that are not valid. Each fault is looked for only where the earlier ones are not. -/
inductive Blames (t : Settings) : ConfigError → Prop
  | names {names : List String} (nonempty : names ≠ []) (sorted : names.Pairwise (· ≤ ·))
      (unknown : names.Perm (t.keys.filter (· ∉ Config.optionNames))) : Blames t (.unknownOptions names)
  | strategyName {x : String} (known : t.Known) (given : t.get? "strategy" = some (.datum (.text x)))
      (unnamed : ∀ st : Strategy, x.toLower ≠ st.name) : Blames t (.badStrategy (.datum (.text x)))
  | bound {s : Setting} (known : t.Known)
      (named : ∀ x, t.get? "strategy" = some (.datum (.text x)) → ∃ st : Strategy, x.toLower = st.name)
      (given : t.get? "max_iterations" = some s) (unfit : ¬ s.IsBound) : Blames t (.badBound s)
  | strategy {s : Setting} (known : t.Known) (bound : ∀ s, t.get? "max_iterations" = some s → s.IsBound)
      (given : t.get? "strategy" = some s) (text : ∀ x, s ≠ .datum (.text x)) (unfit : ∀ st, s ≠ .strategy st) :
      Blames t (.badStrategy s)

theorem unknownNames_perm (t : Settings) :
    (Config.unknownNames t.entries).Perm (t.keys.filter (· ∉ Config.optionNames)) := by
  refine (List.mergeSort_perm _ _).trans (List.Perm.of_eq ?_)
  simp [Table.keys]

theorem pairwise_unknownNames (t : Settings) : (Config.unknownNames t.entries).Pairwise (· ≤ ·) := by
  refine (List.pairwise_mergeSort ?_ ?_ _).imp of_decide_eq_true
  · intro a b c hab hbc
    exact decide_eq_true (String.le_trans (of_decide_eq_true hab) (of_decide_eq_true hbc))
  · intro a b
    simpa using String.le_total a b

theorem blames_unknownNames (h : ¬ t.Known) : t.Blames (.unknownOptions (Config.unknownNames t.entries)) :=
  .names (mt Config.unknownNames_eq_nil.1 h) (pairwise_unknownNames t) (unknownNames_perm t)

theorem valid_of_not_blames (h : ∀ e, ¬ t.Blames e) : t.Valid := by
  -- in the order of the faults, since the absence of each is what the next one presupposes
  have hknown : t.Known := Classical.byContradiction fun hk ↦ h _ (blames_unknownNames hk)
  have hnamed (x) (hx : t.get? "strategy" = some (.datum (.text x))) : ∃ st : Strategy, x.toLower = st.name := by
    by_contra hunnamed
    exact h _ (.strategyName hknown hx fun st hst ↦ hunnamed ⟨st, hst⟩)
  have hbound (s) (hs : t.get? "max_iterations" = some s) : s.IsBound := by
    by_contra hunfit
    exact h _ (.bound hknown hnamed hs hunfit)
  refine ⟨hknown, hbound, fun s hs ↦ ?_⟩
  by_contra hunfit
  refine h _ (.strategy hknown hbound hs ?_ fun st hst ↦ hunfit ⟨st, .inl hst⟩)
  rintro x rfl
  obtain ⟨st, hst⟩ := hnamed x hs
  exact hunfit ⟨st, .inr ⟨x, rfl, hst⟩⟩

theorem isBound_assign (h : ∀ s, t.get? "max_iterations" = some s → s.IsBound) :
    (Config.default.fields.assign t).maxIterations.IsBound := by
  rw [Fields.assign]
  cases hs : t.get? "max_iterations" with
  | none => exact ⟨1000000, rfl, by decide⟩
  | some s => exact h s hs

theorem exists_resolve_assign
    (h : ∀ x, t.get? "strategy" = some (.datum (.text x)) → ∃ st : Strategy, x.toLower = st.name) :
    ∃ s, (Config.default.fields.assign t).strategy.resolve = .ok s := by
  refine Setting.exists_resolve fun x hx ↦ ?_
  cases hs : t.get? "strategy" with
  | none =>
    rw [Fields.assign, hs] at hx
    cases hx
  | some s =>
    rw [Fields.strategy_assign hs] at hx
    exact h x (hx ▸ hs)

theorem load_of_valid (h : t.Valid) : ∃ st, ((t.get? "strategy").getD Config.default.fields.strategy).Names st ∧
    Fields.load t = .ok { Config.default.fields.assign t with strategy := .strategy st } := by
  have hnames : ∃ st, ((t.get? "strategy").getD Config.default.fields.strategy).Names st := by
    cases hs : t.get? "strategy" with
    | none => exact ⟨.rpo, .inl rfl⟩
    | some s => exact h.strategy s hs
  obtain ⟨st, hst⟩ := hnames
  refine ⟨st, hst, ?_⟩
  have hresolve : (Config.default.fields.assign t).strategy.resolve = .ok (.strategy st) := hst.resolve
  have hcheck := Fields.check_of_strategy (f := { Config.default.fields.assign t with strategy := .strategy st })
    (isBound_assign h.bound) rfl
  rw [Fields.load_of_known h.known, hresolve]
  exact congrArg (Except.mapError RevisionError.unfit) hcheck

theorem load_of_blames (h : t.Blames e) : Fields.load t = .error (.unfit e) := by
  cases h with
  | @names names nonempty sorted unknown =>
    have hsame : names = Config.unknownNames t.entries :=
      (unknown.trans (unknownNames_perm t).symm).eq_of_pairwise (fun _ _ _ _ ↦ String.le_antisymm) sorted
        (pairwise_unknownNames t)
    have hknown : ¬ t.Known := fun hk ↦ nonempty (hsame.trans (Config.unknownNames_eq_nil.2 hk))
    rw [Fields.load, if_neg hknown, hsame]
  | @strategyName x known given unnamed =>
    rw [Fields.load_of_known known, Fields.strategy_assign given, Setting.resolve_unnamed unnamed]
    rfl
  | @bound s known named given unfit =>
    have hget : (Config.default.fields.assign t).maxIterations = s := Fields.maxIterations_assign given
    obtain ⟨s', hs'⟩ := exists_resolve_assign named
    have hcheck := Fields.check_of_not_isBound (f := { Config.default.fields.assign t with strategy := s' })
      (hget ▸ unfit)
    rw [Fields.load_of_known known, hs', ← hget]
    exact congrArg (Except.mapError RevisionError.unfit) hcheck
  | @strategy s known bound given text unfit =>
    have hcheck := Fields.check_of_ne_strategy (f := { Config.default.fields.assign t with strategy := s })
      (isBound_assign bound) unfit
    rw [Fields.load_of_known known, Fields.strategy_assign given, Setting.resolve_of_ne_text text]
    exact congrArg (Except.mapError RevisionError.unfit) hcheck

theorem load_eq_error {e : RevisionError} : Fields.load t = .error e ↔ ∃ e', t.Blames e' ∧ e = .unfit e' := by
  constructor
  · intro h
    obtain ⟨e', he'⟩ : ∃ e', t.Blames e' := by
      by_contra hnone
      obtain ⟨st, -, hok⟩ := load_of_valid (valid_of_not_blames (not_exists.1 hnone))
      cases h.symm.trans hok
    exact ⟨e', he', Except.error.inj (h.symm.trans (load_of_blames he'))⟩
  · rintro ⟨e', he', rfl⟩
    exact load_of_blames he'

end Settings

namespace Config

variable {c : Config} {t : Settings}

/-- Options that settings ask for: as they are given, and the defaults elsewhere. -/
structure Carries (c : Config) (t : Settings) : Prop where
  analysisId : c.analysisId = (t.get? "analysis_id").getD default.analysisId
  maxIterations : .datum c.maxIterations.datum = (t.get? "max_iterations").getD (.datum default.maxIterations.datum)
  strategy : ((t.get? "strategy").getD (.strategy default.strategy)).Names c.strategy
  checkInvariants : c.checkInvariants = (t.get? "check_invariants").getD default.checkInvariants

theorem carries_iff {st : Strategy} (hst : ((t.get? "strategy").getD (.strategy default.strategy)).Names st) :
    c.Carries t ↔ c.fields = { default.fields.assign t with strategy := .strategy st } := by
  simp only [fields, Fields.assign, Fields.mk.injEq, Setting.strategy.injEq]
  constructor
  · intro h
    exact ⟨h.analysisId, h.maxIterations, h.strategy.unique hst, h.checkInvariants⟩
  · intro h
    obtain ⟨hid, hb, hs, hinvariants⟩ := h
    exact ⟨hid, hb, hs ▸ hst, hinvariants⟩

theorem ofSettings_eq_error_iff {e : ConfigError} : ofSettings t.entries = .error e ↔ t.Blames e := by
  rw [ofSettings_eq_error, Settings.load_eq_error]
  constructor
  · rintro ⟨e', he', heq⟩
    exact RevisionError.unfit.inj heq ▸ he'
  · intro h
    exact ⟨e, h, rfl⟩

theorem valid_of_ofSettings (h : ofSettings t.entries = .ok c) : t.Valid := by
  refine Settings.valid_of_not_blames fun e he ↦ ?_
  cases h.symm.trans (ofSettings_eq_error_iff.2 he)

theorem ofSettings_eq_ok_iff : ofSettings t.entries = .ok c ↔ t.Valid ∧ c.Carries t := by
  constructor
  · intro h
    have hvalid := valid_of_ofSettings h
    obtain ⟨st, hst, hok⟩ := Settings.load_of_valid hvalid
    exact ⟨hvalid, (carries_iff hst).2 (Except.ok.inj ((ofSettings_eq_ok.1 h).symm.trans hok))⟩
  · intro ⟨hvalid, hc⟩
    obtain ⟨st, hst, hok⟩ := Settings.load_of_valid hvalid
    rw [ofSettings_eq_ok, hok, (carries_iff hst).1 hc]

end Config

inductive ConfigCall
  | construct (t : Settings)
  | load (t : Settings)
  | replace (t : Settings)

namespace ConfigCall

def onConfig (last : Option Config) : ConfigCall → Option Config
  | construct t => (Config.default.revise t.entries).toOption.or last
  | load t => (Config.ofSettings t.entries).toOption.or last
  | replace t => (last.bind fun c ↦ (c.revise t.entries).toOption).or last

def onFields (last : Option Fields) : ConfigCall → Option Fields
  | construct t => (Config.default.fields.make t).toOption.or last
  | load t => (Fields.load t).toOption.or last
  | replace t => (last.bind fun f ↦ (f.make t).toOption).or last

theorem toOption_revise (c : Config) (t : Settings) :
    (c.revise t.entries).toOption.map Config.fields = (c.fields.make t).toOption := by
  rw [← Config.map_revise]
  cases c.revise t.entries <;> rfl

theorem toOption_ofSettings (t : Settings) :
    (Config.ofSettings t.entries).toOption.map Config.fields = (Fields.load t).toOption := by
  rw [← Config.map_ofSettings]
  cases Config.ofSettings t.entries <;> rfl

theorem map_onConfig (last : Option Config) (call : ConfigCall) :
    (call.onConfig last).map Config.fields = call.onFields (last.map Config.fields) := by
  cases call with
  | construct t => rw [onConfig, onFields, Option.map_or, toOption_revise]
  | load t => rw [onConfig, onFields, Option.map_or, toOption_ofSettings]
  | replace t =>
    cases last with
    | none => rfl
    | some c => exact Option.map_or.trans (congrArg (Option.or · _) (toOption_revise c t))

end ConfigCall

def Config.last? (calls : List ConfigCall) : Option Config := calls.foldl ConfigCall.onConfig none

def Fields.last? (calls : List ConfigCall) : Option Fields := calls.foldl ConfigCall.onFields none

/-- Whatever the calls were, the fields that they leave are those of well-formed options. -/
theorem Config.map_last? (calls : List ConfigCall) : (last? calls).map fields = Fields.last? calls :=
  (List.foldl_hom (Option.map fields) fun last call ↦ (ConfigCall.map_onConfig last call).symm).symm

namespace Config

def entries (c : Config) (s : Setting) : List (String × Setting) :=
  [("analysis_id", c.analysisId), ("max_iterations", .datum c.maxIterations.datum), ("strategy", s),
    ("check_invariants", c.checkInvariants)]

theorem ofSettings_entries {c : Config} {s : Setting} {l : List (String × Setting)} (hs : s.Names c.strategy)
    (hl : l.Perm (c.entries s)) : ofSettings l = .ok c := by
  have hkeys : (l.map Prod.fst).Perm optionNames := hl.map Prod.fst
  let t : Settings := ⟨l, hkeys.nodup_iff.2 (by decide)⟩
  have hget {k v} (h : (k, v) ∈ c.entries s) : t.get? k = some v := (readAt_eq_some t.distinct).2 (hl.mem_iff.2 h)
  have hid : t.get? "analysis_id" = some c.analysisId := hget (by simp [entries])
  have hbound : t.get? "max_iterations" = some (.datum c.maxIterations.datum) := hget (by simp [entries])
  have hstrategy : t.get? "strategy" = some s := hget (by simp [entries])
  have hinvariants : t.get? "check_invariants" = some c.checkInvariants := hget (by simp [entries])
  have hvalid : t.Valid := by
    refine ⟨fun k hk ↦ hkeys.mem_iff.1 hk, fun b hb ↦ ?_, fun s' hs' ↦ ⟨c.strategy, ?_⟩⟩
    · exact Setting.isBound_iff.2 ⟨c.maxIterations, Option.some.inj (hb.symm.trans hbound)⟩
    · exact Option.some.inj (hstrategy.symm.trans hs') ▸ hs
  have hcarries : c.Carries t := by
    constructor
    · rw [hid, Option.getD_some]
    · rw [hbound, Option.getD_some]
    · rwa [hstrategy, Option.getD_some]
    · rw [hinvariants, Option.getD_some]
  have hok : ofSettings t.entries = .ok c := ofSettings_eq_ok_iff.2 ⟨hvalid, hcarries⟩
  exact hok

/-- Settings are taken for options exactly if they are valid. The options carry what the settings give, and of other
settings the first fault is reported. After any calls the fields of the last options are fit, and options are made
from them again, in any order and with the strategy or its name in any letter case. -/
theorem ofSettings_accepts_valid :
    (∀ t : Settings, ((∃ c, ofSettings t.entries = .ok c) ↔ t.Valid) ∧
      (∀ c, ofSettings t.entries = .ok c ↔ t.Valid ∧ c.Carries t) ∧
      (∀ e, ofSettings t.entries = .error e ↔ t.Blames e) ∧
      ((ofSettings t.entries).map fields).mapError .unfit = Fields.load t) ∧
    ∀ calls, (last? calls).map fields = Fields.last? calls ∧ ∀ f, Fields.last? calls = some f →
      (∃ n, f.maxIterations.whole? = some n ∧ 0 < n) ∧ (∃ st, f.strategy = .strategy st) ∧
      ∃ c, f = c.fields ∧ ∀ s l, s.Names c.strategy → l.Perm (c.entries s) → ofSettings l = .ok c := by
  refine ⟨fun t ↦ ⟨⟨fun ⟨c, h⟩ ↦ valid_of_ofSettings h, fun h ↦ ?_⟩, fun c ↦ ofSettings_eq_ok_iff,
    fun e ↦ ofSettings_eq_error_iff, map_ofSettings t⟩, fun calls ↦ ⟨map_last? calls, fun f hf ↦ ?_⟩⟩
  · cases hr : ofSettings t.entries with
    | ok c => exact ⟨c, rfl⟩
    | error e =>
      obtain ⟨st, -, hok⟩ := Settings.load_of_valid h
      cases (ofSettings_eq_error.1 hr).symm.trans hok
  · rw [← map_last?, Option.map_eq_some_iff] at hf
    obtain ⟨c, -, rfl⟩ := hf
    exact ⟨Setting.isBound_iff.2 ⟨c.maxIterations, rfl⟩, ⟨c.strategy, rfl⟩, c, rfl, fun s l ↦ ofSettings_entries⟩

end Config

end ConstantFlow
