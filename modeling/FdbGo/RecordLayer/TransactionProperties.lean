import FdbGo.RecordLayer.Transaction

/-! What mutations make of the database, and how calls against a transaction compose. -/

set_option autoImplicit false

namespace FdbGo.Client.Snapshot

open Foundation
open RecordLayer (touches)

variable {d d' : Snapshot} {b e k key : Key} {v value : Bytes} {kv : KeyValue}

theorem get_eq_of_mem (member : kv ∈ d.rows) : d.get kv.key = some kv.value :=
  get_eq_some_iff.mpr member

theorem get_set (d : Snapshot) (key : Key) (value : Bytes) :
    (d.set key value).get = Function.update d.get key (some value) := by
  funext k
  ext v
  rw [get_eq_some_iff, set, mem_put, KeyValue.mk.injEq]
  by_cases same : k = key
  · subst same
    rw [Function.update_self, Option.some.injEq]
    exact ⟨fun found => found.elim (fun is => is.2.symm) fun other => absurd rfl other.2,
      fun is => .inl ⟨rfl, is.symm⟩⟩
  · rw [Function.update_of_ne same, get_eq_some_iff]
    exact ⟨fun found => found.elim (fun is => absurd is.1 same) And.left, fun old => .inr ⟨old, same⟩⟩

theorem get_clearRange (d : Snapshot) (b e : Key) :
    (d.clearRange b e).get = fun k => if b ≤ k ∧ k < e then none else d.get k := by
  funext k
  ext v
  rw [get_eq_some_iff, clearRange, List.mem_filter]
  by_cases inside : b ≤ k ∧ k < e
  · simp [inside]
  · simp only [inside, decide_false, Bool.not_false, and_true, if_false]
    exact get_eq_some_iff.symm

theorem get_clearRange_point (d : Snapshot) (key : Key) :
    (d.clearRange key (keyAfter key)).get = Function.update d.get key none := by
  rw [get_clearRange]
  funext k
  simp only [within_keyAfter_iff, Function.update_apply]

theorem get_apply (d : Snapshot) (m : Mutation) : (d.apply m).get = m.apply d.get := by
  obtain ⟨typ, key, value⟩ := m
  cases typ with
  | setValue => exact get_set d key value
  | clearRange => exact get_clearRange d key value
  | addValue | and | or | xor | appendIfFits | max | min | setVersionstampedKey
  | setVersionstampedValue | byteMin | byteMax | minV2 | andV2 | compareAndClear =>
    simp only [apply, Mutation.apply]
    split
    case h_1 some_ => rw [some_, get_set]
    case h_2 none_ => rw [none_, get_clearRange_point]

private theorem get_apply_untouched {m : Mutation} (free : touches m k ≠ true) : (d.apply m).get k = d.get k := by
  rw [get_apply]
  obtain ⟨typ, key, value⟩ := m
  cases typ with
  | clearRange => exact if_neg fun inside => free (decide_eq_true inside)
  | setValue | addValue | and | or | xor | appendIfFits | max | min | setVersionstampedKey
  | setVersionstampedValue | byteMin | byteMax | minV2 | andV2 | compareAndClear =>
    exact Function.update_of_ne (fun same => free (decide_eq_true same.symm)) _ _

theorem mem_rows_set : kv ∈ (d.set key value).rows ↔ kv = { key, value } ∨ kv ∈ d.rows ∧ kv.key ≠ key :=
  mem_put

theorem mem_rows_clearRange : kv ∈ (d.clearRange b e).rows ↔ kv ∈ d.rows ∧ ¬ (b ≤ kv.key ∧ kv.key < e) := by
  simp only [clearRange, List.mem_filter, Bool.not_eq_true', decide_eq_false_iff_not]

theorem page_last (d : Snapshot) (b e : Key) : (d.page b e 1 true).reverse = (d.within b e).getLast?.toList := by
  simp only [page, show ¬ ((1 : Int) ≤ 0) by decide, if_false, if_true]
  generalize d.within b e = rows
  cases rows using List.reverseRecOn with
  | nil => rfl
  | append_singleton rows last => simp

theorem page_all (d : Snapshot) (b e : Key) (reverse : Bool) : d.page b e 0 reverse = d.within b e := rfl

end FdbGo.Client.Snapshot

namespace FdbGo.RecordLayer

open Client Foundation

variable {b e : Key}

namespace Transaction

variable (t : Transaction)

@[simp] theorem view_mutate (m : Mutation) : (t.mutate m).view = t.view.apply m := by
  simp only [view, mutate, List.foldl_append, List.foldl_cons, List.foldl_nil]

variable {t} {k : Key}

theorem reads_addRead (fresh : t.mutations = []) (inside : b ≤ k ∧ k < e) : (t.addRead b e).Reads k := by
  refine ⟨⟨⟨b, e⟩, t.mutations⟩, List.mem_append_right _ List.mem_cons_self, ?_⟩
  rw [ReadConflict.covers, fresh, decide_eq_true inside]
  rfl

theorem Reads.addRead (reads : t.Reads k) (b e : Key) : (t.addRead b e).Reads k := by
  obtain ⟨r, member, covers⟩ := reads
  exact ⟨r, List.mem_append_left _ member, covers⟩

/-- A call changes no value that its mutations leave alone. -/
theorem get_kept {t' : Transaction} {more : List Mutation} (base : t'.base = t.base)
    (mutations : t'.mutations = t.mutations ++ more) (free : ¬ t'.Writes k) : t'.view.get k = t.view.get k := by
  have untouched : ∀ m ∈ more, touches m k ≠ true := fun m member touched =>
    free (.inl ⟨m, mutations ▸ List.mem_append_right _ member, touched⟩)
  rw [view, base, mutations, List.foldl_append, ← view]
  generalize t.view = d
  clear mutations
  induction more generalizing d with
  | nil => rfl
  | cons m more ih =>
    rw [List.foldl_cons, ih (List.forall_mem_cons.mp untouched).2]
    exact Snapshot.get_apply_untouched (untouched m List.mem_cons_self)

end Transaction

namespace Tx

variable {Error Result Next : Type} {t t' : Transaction}

@[simp] theorem run_pure (result : Result) : (pure result : Tx Error Result).run t = (.ok result, t) := rfl

theorem run_bind (call : Tx Error Result) (next : Result → Tx Error Next) :
    (call >>= next).run t =
      match call.run t with
      | (.ok result, t') => (next result).run t'
      | (.error cause, t') => (.error cause, t') := rfl

variable {call : Tx Error Result}

/-- After a call that succeeded the rest runs on its result. -/
theorem run_bind_ok {result : Result} (ran : call.run t = (.ok result, t')) (next : Result → Tx Error Next) :
    (call >>= next).run t = (next result).run t' := by
  rw [run_bind, ran]

theorem run_bind_error {cause : Failure Error} (failed : call.run t = (.error cause, t'))
    (next : Result → Tx Error Next) : (call >>= next).run t = (.error cause, t') := by
  rw [run_bind, failed]

/-- A call that succeeds does so step by step. -/
theorem run_bind_eq_ok {next : Result → Tx Error Next} {answer : Next}
    (ran : (call >>= next).run t = (.ok answer, t')) :
    ∃ result t₁, call.run t = (.ok result, t₁) ∧ (next result).run t₁ = (.ok answer, t') := by
  rw [run_bind] at ran
  cases first : call.run t with
  | mk outcome t₁ =>
    cases outcome with
    | error cause =>
      rw [first] at ran
      cases ran
    | ok result =>
      rw [first] at ran
      exact ⟨result, t₁, rfl, ran⟩

@[simp] theorem run_set (key : Key) (value : Bytes) :
    (set key value : Tx Error Unit).run t = (.ok (), t.mutate { typ := .setValue, key, value }) := rfl

theorem run_add (key : Key) (param : Bytes) :
    (add key param : Tx Error Unit).run t = (.ok (), t.mutate { typ := .addValue, key, value := param }) := rfl

theorem run_get (key : Key) : (get key : Tx Error _).run t = (.ok (t.view.get key), t.addRead key (keyAfter key)) := rfl

/-- A full range read returns the rows of the view and records the range as read. -/
theorem run_getRange (b e : Key) :
    (getRange b e 0 false : Tx Error _).run t = (.ok (t.view.within b e), t.addRead b e) := by
  simp only [getRange, Snapshot.page_all, Bool.false_eq_true, if_false, lt_irrefl, false_and]
  cases (t.view.within b e).getLast? <;> rfl

@[simp] theorem run_addReadConflictKey (key : Key) :
    (addReadConflictKey key : Tx Error Unit).run t = (.ok (), t.addRead key (keyAfter key)) := rfl

theorem run_addReadConflictRange (le : b ≤ e) :
    (addReadConflictRange b e : Tx Error Unit).run t = (.ok (), t.addRead b e) :=
  if_neg (not_lt.mpr le)

theorem run_addWriteConflictRange (le : b ≤ e) :
    (addWriteConflictRange b e : Tx Error Unit).run t = (.ok (), t.addWrite b e) :=
  if_neg (not_lt.mpr le)

end Tx

end FdbGo.RecordLayer
