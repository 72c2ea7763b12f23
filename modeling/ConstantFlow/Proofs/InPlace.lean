import ConstantFlow.Proofs.Joins
import ConstantFlow.Proofs.StrongUpdate

namespace ConstantFlow

/-- A pool in use, and all writes so far: to which fact, and to which of its variables. -/
structure Ledger where
  pool : Pool
  writes : List (String × Var)

/-- Why a command stops under way: it is refused, or what it goes through has got another size. -/
inductive Stop
  | refused (e : CommandError)
  | resized

abbrev Work := ExceptT Stop (StateM Ledger)

namespace Work

variable {α β : Type} {w : Work α} {k : α → Work β} {l : Ledger} {slot : String} {f t : Fact} {x : Var} {v : Value}

def on (w : Work α) (l : Ledger) : Except Stop α × Ledger := w.run.run l

theorem on_bind (w : Work α) (k : α → Work β) (l : Ledger) :
    (w >>= k).on l =
      match w.on l with
      | (.ok a, l') => (k a).on l'
      | (.error e, l') => (.error e, l') := by
  rw [on, ExceptT.run_bind, StateT.run_bind]
  change _ = match w.run.run l with | (.ok a, l') => (k a).on l' | (.error e, l') => (.error e, l')
  rcases w.run.run l with ⟨e | a, l'⟩ <;> rfl

@[simp] theorem on_pure (a : α) (l : Ledger) : (pure a : Work α).on l = (.ok a, l) := rfl

@[simp] theorem on_throw (e : Stop) (l : Ledger) : (throw e : Work α).on l = (.error e, l) := rfl

theorem on_modify (g : Ledger → Ledger) (l : Ledger) : (modify g : Work Unit).on l = (.ok (), g l) := rfl

theorem on_map (g : α → β) (w : Work α) (l : Ledger) : (g <$> w).on l = ((w.on l).1.map g, (w.on l).2) := by
  rw [map_eq_pure_bind, on_bind]
  rcases w.on l with ⟨a | e, l'⟩ <;> rfl

def read (slot : String) : Work Fact := ExceptT.mk fun l ↦ ((l.pool.get slot).mapError .refused, l)

def write (slot : String) (x : Var) (v : Value) : Work Bool := do
  let (f, changed) := (← read slot).update x v
  modify fun l ↦ ⟨l.pool.put slot f, l.writes ++ [(slot, x)]⟩
  return changed

def raise (slot : String) (x : Var) (v : Value) : Work Bool := do
  let f ← read slot
  if f.get x ≤ v then write slot x v else throw (.refused (.nonMonotone ⟨x, f.get x, v⟩))

/-- Writes one variable of a source, with a value made of both values, and says whether a change has been made by now.
What is read is read anew, and the write may not bring a new variable to the source. -/
def spreadStep (source : Work Fact) (size : Nat) (slot : String) (store : Var → Value → Work Bool)
    (op : Value → Value → Value) (changed : Bool) (x : Var) : Work Bool := do
  let v := (← source).get x
  let b ← store x (op v ((← read slot).get x))
  if (← source).size = size then return changed || b else throw .resized

def spread (source : Work Fact) (slot : String) (store : Var → Value → Work Bool) (op : Value → Value → Value) :
    Work Bool := do
  let f ← source
  f.keys.foldlM (spreadStep source f.size slot store op) false

def perform (checked : Bool) : Command → Work (Option Bool)
  | .update slot x v => some <$> write slot x v
  | .raise slot x v => some <$> raise slot x v
  | .copy source slot => do
    let f ← read source
    modify fun l ↦ { l with pool := l.pool.put slot f }
    return none
  | .copyFrom slot source => do
    let _ ← read slot
    let _ ← read source
    some <$> spread (read source) slot (write slot) fun v _ ↦ v
  | .meet source slot => do
    let _ ← read source
    let _ ← read slot
    let _ ← spread (read source) slot (if checked then raise slot else write slot) Value.meet
    return none
  | .transfer s source slot => do
    let f ← read source
    let _ ← read slot
    match s.refusal? with
    | some e => throw (.refused (.value e))
    | none => some <$> spread (pure (s.effect f)) slot (write slot) fun v _ ↦ v

theorem on_read (h : l.pool.get slot = .ok f) : (read slot).on l = (.ok f, l) := by
  change ((l.pool.get slot).mapError Stop.refused, l) = _
  rw [h]
  rfl

theorem on_read_error {e : CommandError} (h : l.pool.get slot = .error e) :
    (read slot).on l = (.error (.refused e), l) := by
  change ((l.pool.get slot).mapError Stop.refused, l) = _
  rw [h]
  rfl

theorem on_write (h : l.pool.get slot = .ok f) (x : Var) (v : Value) :
    (write slot x v).on l = (.ok (f.get x ≠ v), ⟨l.pool.put slot (f.set x v), l.writes ++ [(slot, x)]⟩) := by
  simp [write, on_bind, on_map, on_modify, on_read h, Except.map, Fact.update_eq]

theorem on_write_error {e : CommandError} (h : l.pool.get slot = .error e) (x : Var) (v : Value) :
    (write slot x v).on l = (.error (.refused e), l) := by
  simp only [write, on_bind, on_read_error h]

theorem on_raise (h : l.pool.get slot = .ok f) (x : Var) (v : Value) :
    (raise slot x v).on l =
      if f.get x ≤ v then (write slot x v).on l else (.error (.refused (.nonMonotone ⟨x, f.get x, v⟩)), l) := by
  simp only [raise, on_bind, on_read h]
  split <;> simp

end Work

namespace Fact

theorem length_keys (f : Fact) : f.keys.length = f.size := List.length_map _

def spreadStep (op : Value → Value → Value) (f : Fact) (acc : Fact × Bool) (x : Var) : Fact × Bool :=
  (acc.1.set x (op (f.get x) (acc.1.get x)), acc.2 || acc.1.get x ≠ op (f.get x) (acc.1.get x))

def spread (op : Value → Value → Value) (f t : Fact) : Fact × Bool := f.keys.foldl (spreadStep op f) (t, false)

theorem entries_eq (f : Fact) : f.entries = f.keys.map fun x ↦ (x, f.get x) := by
  have hsame : ∀ e ∈ f.entries, (e.1, f.get e.1) = e := fun e he ↦ by rw [get_eq_of_mem he]
  rw [keys, Table.keys, List.map_map]
  exact ((List.map_congr_left hsame).trans (List.map_id _)).symm

theorem copyFrom_eq_spread (f g : Fact) : f.copyFrom g = spread (fun v _ ↦ v) g f := by
  rw [copyFrom, entries_eq, List.foldl_map]
  simp only [update_eq]
  rfl

theorem fst_foldl_spreadStep (op : Value → Value → Value) (f : Fact) (ks : List Var) (acc : Fact × Bool) :
    (ks.foldl (spreadStep op f) acc).1 = ks.foldl (fun t x ↦ t.set x (op (f.get x) (t.get x))) acc.1 := by
  induction ks generalizing acc with
  | nil => rfl
  | cons x ks ih => exact ih _

theorem merge_eq_spread (f t : Fact) : f.merge t = (spread Value.meet f t).1 := by
  rw [merge, meetEntries, entries_eq, List.foldl_map, spread, fst_foldl_spreadStep]

end Fact

namespace Work

variable {p : Pool} {slot : String} {f t : Fact} {source : Work Fact} {store : Var → Value → Work Bool}
  {op : Value → Value → Value}

/-- However far the writes to a slot have got, the source reads as `f` where nothing has been written yet, and is of the
size of `f` if no variable of `f` was new to the slot. -/
def Shows (source : Work Fact) (p : Pool) (slot : String) (t f : Fact) : Prop :=
  ∀ (l : Ledger) (t' : Fact), l.pool = p.put slot t' → (f.keys ⊆ t.keys → t'.keys = t.keys) →
    ∃ g, source.on l = (.ok g, l) ∧ g.size = f.size ∧ ∀ x, t'.get x = t.get x → g.get x = f.get x

def Accepts (store : Var → Value → Work Bool) (op : Value → Value → Value) (slot : String) (f : Fact) : Prop :=
  ∀ (l : Ledger) (t : Fact) (x : Var), l.pool.get slot = .ok t →
    (store x (op (f.get x) (t.get x))).on l = (write slot x (op (f.get x) (t.get x))).on l

/-- What has been done before the next write: the other variables of `f` are unwritten, and those of the slot are still
the same if they were those of `f`. -/
structure Pending (t f : Fact) (ks : List Var) (t' : Fact) : Prop where
  nodup : ks.Nodup
  from_source : ks ⊆ f.keys
  unwritten : ∀ x ∈ ks, t'.get x = t.get x
  same_keys : f.keys ⊆ t.keys → t'.keys = t.keys

theorem Pending.set {ks : List Var} {t' : Fact} {x : Var} (h : Pending t f (x :: ks) t') (v : Value) :
    Pending t f ks (t'.set x v) := by
  obtain ⟨hx, hks⟩ := List.nodup_cons.1 h.nodup
  refine ⟨hks, List.subset_of_cons_subset h.from_source, fun y hy ↦ ?_, fun hsub ↦ ?_⟩
  · have hne : x ≠ y := fun he ↦ hx (he ▸ hy)
    rw [Fact.get_set, if_neg hne, h.unwritten y (List.mem_cons_of_mem x hy)]
  · have hmem : x ∈ t'.keys := h.same_keys hsub ▸ hsub (h.from_source List.mem_cons_self)
    rw [Fact.keys_set, if_pos hmem, h.same_keys hsub]

theorem on_spreadStep (hshows : Shows source p slot t f) (haccepts : Accepts store op slot f) {x : Var}
    {ks : List Var} {l : Ledger} (acc : Fact × Bool) (hl : l.pool = p.put slot acc.1)
    (hacc : Pending t f (x :: ks) acc.1) :
    (spreadStep source f.size slot store op acc.2 x).on l =
      (.ok (Fact.spreadStep op f acc x).2, ⟨p.put slot (Fact.spreadStep op f acc x).1, l.writes ++ [(slot, x)]⟩) := by
  obtain ⟨g, hsource, -, hg⟩ := hshows l acc.1 hl hacc.same_keys
  have hx : g.get x = f.get x := hg x (hacc.unwritten x List.mem_cons_self)
  have hslot : l.pool.get slot = .ok acc.1 := by rw [hl, Pool.get_put, if_pos rfl]
  have hwrite := (haccepts l acc.1 x hslot).trans (on_write hslot x _)
  rw [hl, Pool.put_put] at hwrite
  -- the source once more, now after the write
  obtain ⟨g', hsource', hsize, -⟩ := hshows
    ⟨p.put slot (acc.1.set x (op (f.get x) (acc.1.get x))), l.writes ++ [(slot, x)]⟩ _ rfl (hacc.set _).same_keys
  simp only [spreadStep, on_bind, hsource, on_read hslot, hx, hwrite, hsource', if_pos hsize]
  rfl

theorem on_foldlM (hshows : Shows source p slot t f) (haccepts : Accepts store op slot f) {ks : List Var} {l : Ledger}
    (acc : Fact × Bool) (hl : l.pool = p.put slot acc.1) (hacc : Pending t f ks acc.1) :
    ∃ writes, (ks.foldlM (spreadStep source f.size slot store op) acc.2).on l =
      (.ok (ks.foldl (Fact.spreadStep op f) acc).2, ⟨p.put slot (ks.foldl (Fact.spreadStep op f) acc).1, writes⟩) := by
  induction ks generalizing l acc with
  | nil => exact ⟨l.writes, by simp [← hl]⟩
  | cons x ks ih =>
    rw [List.foldlM_cons, on_bind, on_spreadStep hshows haccepts acc hl hacc]
    exact ih (Fact.spreadStep op f acc x) rfl (hacc.set _)

theorem on_spread {l : Ledger} (hsource : source.on l = (.ok f, l)) (ht : l.pool.get slot = .ok t)
    (hshows : Shows source l.pool slot t f) (haccepts : Accepts store op slot f) :
    ∃ writes, (spread source slot store op).on l =
      (.ok (f.spread op t).2, ⟨l.pool.put slot (f.spread op t).1, writes⟩) := by
  have hl : l.pool = l.pool.put slot t := (Pool.put_of_get ht).symm
  have hstart : Pending t f f.keys t := ⟨f.nodup_keys, fun _ hx ↦ hx, fun _ _ ↦ rfl, fun _ ↦ rfl⟩
  obtain ⟨writes, h⟩ := on_foldlM hshows haccepts (t, false) hl hstart
  refine ⟨writes, ?_⟩
  rw [spread, on_bind, hsource]
  exact h

theorem shows_pure (p : Pool) (slot : String) (t f : Fact) : Shows (pure f) p slot t f :=
  fun _ _ _ _ ↦ ⟨f, rfl, rfl, fun _ _ ↦ rfl⟩

theorem shows_read {source : String} (hf : p.get source = .ok f) (ht : p.get slot = .ok t) :
    Shows (read source) p slot t f := by
  intro l t' hl hkeys
  have hget : l.pool.get source = if slot = source then .ok t' else p.get source := by rw [hl, Pool.get_put]
  by_cases h : slot = source
  · subst h
    obtain rfl : f = t := Except.ok.inj (hf.symm.trans ht)
    rw [if_pos rfl] at hget
    have hsize : t'.size = f.size := by
      rw [← Fact.length_keys, hkeys fun _ hx ↦ hx, Fact.length_keys]
    exact ⟨t', on_read hget, hsize, fun _ hx ↦ hx⟩
  · rw [if_neg h, hf] at hget
    exact ⟨f, on_read hget, rfl, fun _ _ ↦ rfl⟩

theorem accepts_write (op : Value → Value → Value) (slot : String) (f : Fact) : Accepts (write slot) op slot f :=
  fun _ _ _ _ ↦ rfl

theorem accepts_meet (checked : Bool) (slot : String) (f : Fact) :
    Accepts (if checked then raise slot else write slot) Value.meet slot f := by
  intro l t x ht
  cases checked with
  | false => rfl
  | true =>
    rw [if_pos rfl, on_raise ht, if_pos (Value.le_meet_right _ _)]

section

variable {checked : Bool} {c : Command} {l : Ledger}

/-- In place or not, a command has the same outcome and leaves the same pool. -/
structure Agrees (checked : Bool) (c : Command) (l : Ledger) : Prop where
  outcome : ((perform checked c).on l).1 = ((l.pool.result checked c).map Prod.snd).mapError .refused
  pool : ((perform checked c).on l).2.pool = l.pool.run checked c

theorem agrees_of_ok (g : Fact) (b : Option Bool) (hr : l.pool.result checked c = .ok (g, b))
    (h : ∃ writes, (perform checked c).on l = (.ok b, ⟨l.pool.put c.slot g, writes⟩)) : Agrees checked c l := by
  obtain ⟨writes, h⟩ := h
  constructor
  · rw [h, hr]
    rfl
  · rw [h, Pool.run_of_result hr]

theorem agrees_of_error (e : CommandError) (hr : l.pool.result checked c = .error e)
    (h : (perform checked c).on l = (.error (.refused e), l)) : Agrees checked c l := by
  constructor
  · rw [h, hr]
    rfl
  · rw [h, Pool.run_of_result_error hr]

theorem agrees_of_read (slot : String) {rest : Fact → Except CommandError (Fact × Option Bool)}
    {next : Fact → Work (Option Bool)} (hr : l.pool.result checked c = l.pool.get slot >>= rest)
    (hw : (perform checked c).on l = (read slot >>= next).on l)
    (h : ∀ f, l.pool.get slot = .ok f → Agrees checked c l) : Agrees checked c l := by
  cases hf : l.pool.get slot with
  | ok f => exact h f hf
  | error e =>
    apply agrees_of_error e
    · rw [hr, hf]
      rfl
    · rw [hw, on_bind, on_read_error hf]

theorem agrees_update (checked : Bool) (slot : String) (x : Var) (v : Value) (l : Ledger) :
    Agrees checked (.update slot x v) l := by
  refine agrees_of_read slot rfl (congrArg (on · l) (map_bind some (read slot) _)) fun f hf ↦ ?_
  apply agrees_of_ok _ _ (Pool.result_update hf checked x v)
  rw [perform, on_map, on_write hf]
  exact ⟨_, rfl⟩

theorem agrees_raise (checked : Bool) (slot : String) (x : Var) (v : Value) (l : Ledger) :
    Agrees checked (.raise slot x v) l := by
  refine agrees_of_read slot rfl (congrArg (on · l) (map_bind some (read slot) _)) fun f hf ↦ ?_
  by_cases h : f.get x ≤ v
  · apply agrees_of_ok _ _ (Pool.result_raise hf checked h)
    rw [perform, on_map, on_raise hf, if_pos h, on_write hf]
    exact ⟨_, rfl⟩
  · apply agrees_of_error _ (Pool.result_raise_error hf checked h)
    rw [perform, on_map, on_raise hf, if_neg h]
    rfl

theorem agrees_copy (checked : Bool) (source slot : String) (l : Ledger) : Agrees checked (.copy source slot) l := by
  refine agrees_of_read source rfl rfl fun f hf ↦ ?_
  apply agrees_of_ok _ _ (Pool.result_copy hf checked slot)
  simp only [perform, on_bind, on_read hf]
  exact ⟨_, rfl⟩

theorem agrees_copyFrom (checked : Bool) (slot source : String) (l : Ledger) :
    Agrees checked (.copyFrom slot source) l := by
  refine agrees_of_read slot rfl rfl fun t ht ↦ ?_
  refine agrees_of_read source (by rw [Pool.result, ht]; rfl) (by rw [perform, on_bind, on_read ht]) fun f hf ↦ ?_
  have hread : (read source).on l = (.ok f, l) := on_read hf
  obtain ⟨writes, h⟩ := on_spread hread ht (shows_read hf ht) (accepts_write (fun v _ ↦ v) slot f)
  apply agrees_of_ok _ _ (Pool.result_copyFrom ht hf checked)
  simp only [perform, on_bind, on_read ht, on_read hf, on_map, h, Fact.copyFrom_eq_spread]
  exact ⟨_, rfl⟩

theorem agrees_meet (checked : Bool) (source slot : String) (l : Ledger) : Agrees checked (.meet source slot) l := by
  refine agrees_of_read source rfl rfl fun f hf ↦ ?_
  refine agrees_of_read slot (by rw [Pool.result, hf]; rfl) (by rw [perform, on_bind, on_read hf]) fun t ht ↦ ?_
  have hread : (read source).on l = (.ok f, l) := on_read hf
  obtain ⟨writes, h⟩ := on_spread hread ht (shows_read hf ht) (accepts_meet checked slot f)
  apply agrees_of_ok _ _ (Pool.result_meet hf ht checked)
  simp only [perform, on_bind, on_read ht, on_read hf, h, Fact.merge_eq_spread]
  exact ⟨_, rfl⟩

theorem agrees_transfer (checked : Bool) (s : Stmt) (source slot : String) (l : Ledger) :
    Agrees checked (.transfer s source slot) l := by
  refine agrees_of_read source rfl rfl fun f hf ↦ ?_
  refine agrees_of_read slot (by rw [Pool.result, hf]; rfl) (by rw [perform, on_bind, on_read hf]) fun t ht ↦ ?_
  cases hs : s.refusal? with
  | some e =>
    apply agrees_of_error _ (Pool.result_transfer_error hf ht hs checked)
    simp only [perform, on_bind, on_read hf, on_read ht, hs, on_throw]
  | none =>
    have hpure : (pure (s.effect f) : Work Fact).on l = (.ok (s.effect f), l) := on_pure _ l
    obtain ⟨writes, h⟩ := on_spread hpure ht (shows_pure l.pool slot t (s.effect f))
      (accepts_write (fun v _ ↦ v) slot (s.effect f))
    apply agrees_of_ok _ _ (Pool.result_transfer (Stmt.refusal?_eq_none.1 hs) hf ht checked)
    simp only [perform, on_bind, on_read ht, on_read hf, hs, on_map, h, Fact.copyFrom_eq_spread]
    exact ⟨_, rfl⟩

theorem agrees (checked : Bool) (c : Command) (l : Ledger) : Agrees checked c l := by
  cases c with
  | update slot x v => exact agrees_update checked slot x v l
  | raise slot x v => exact agrees_raise checked slot x v l
  | copy source slot => exact agrees_copy checked source slot l
  | copyFrom slot source => exact agrees_copyFrom checked slot source l
  | meet source slot => exact agrees_meet checked source slot l
  | transfer s source slot => exact agrees_transfer checked s source slot l

end

end Work

end ConstantFlow
