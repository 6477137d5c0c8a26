import FdbGo.Tuple.Order

/-! Packed tuples that begin alike: one of the tuples begins with the other. -/

set_option autoImplicit false

namespace FdbGo.Tuple

open Client (Bytes)

theorem wires_append (nested : Bool) (vs others : List Value) :
    wires nested (vs ++ others) = wires nested vs ++ wires nested others := by
  induction vs with
  | nil => rfl
  | cons value vs ih => rw [List.cons_append, wires, wires, ih, List.append_assoc]

theorem packables_append (vs others : List Value) : packables (vs ++ others) = (packables vs && packables others) := by
  induction vs with
  | nil => rfl
  | cons value vs ih => rw [List.cons_append, packables, packables, ih, Bool.and_assoc]

theorem values_eq_map (t : List Element) : values t = t.map Element.value := by
  induction t with
  | nil => rfl
  | cons element t ih => rw [values, ih, List.map_cons]

theorem values_append (t others : List Element) : values (t ++ others) = values t ++ values others := by
  induction t with
  | nil => rfl
  | cons element t ih => rw [List.cons_append, values, values, ih, List.cons_append]

theorem packable_int64 (value : Int64) : (Value.integer value.toInt).packable = true := by
  have bounds := int64_bounds value
  have small : FdbGo.Foundation.byteLength value.toInt.natAbs ≤ 8 := FdbGo.Foundation.byteLength_le_iff.mpr (by omega)
  exact decide_eq_true (small.trans (by decide))

variable {others vs : List Value} {s t : Bytes}

theorem wires_injective (packable : packables vs = true) (otherPackable : packables others = true)
    (same : wires false vs = wires false others) : vs = others := by
  have unpacked := unpack_wires packable
  rw [same, unpack_wires otherPackable] at unpacked
  rw [← values_elements vs, ← values_elements others, Except.ok.inj unpacked]

private theorem wire_eq {value other : Value} (packable : value.packable = true) (otherPackable : other.packable = true)
    (tail : Tail s) (otherTail : Tail t) (same : value.wire false ++ s = other.wire false ++ t) :
    value = other ∧ s = t := by
  have equal := cmp_wire false value other packable otherPackable tail otherTail
  rw [same, cmp_self_eq_eq, eq_comm, Ordering.then_eq_eq] at equal
  have alone : Tail [] := by simp [Tail]
  have wires_eq := cmp_wire false value other packable otherPackable alone alone
  rw [equal.1, cmp_self_eq_eq, List.append_nil, List.append_nil] at wires_eq
  have both : wires false [value] = wires false [other] := by
    rw [wires, wires, (cmp_eq_eq_iff _ _).mp wires_eq]
    rfl
  have values_eq := wires_injective (by simpa [packables] using packable) (by simpa [packables] using otherPackable) both
  exact ⟨List.head_eq_of_cons_eq values_eq, (cmp_eq_eq_iff s t).mp equal.2⟩

theorem prefix_of_wires_eq (packable : packables vs = true) (otherPackable : packables others = true) (tail : Tail s)
    (otherTail : Tail t) (same : wires false vs ++ s = wires false others ++ t) : vs <+: others ∨ others <+: vs := by
  induction vs generalizing others with
  | nil => exact .inl List.nil_prefix
  | cons value vs ih =>
    cases others with
    | nil => exact .inr List.nil_prefix
    | cons other others =>
      simp only [packables, Bool.and_eq_true] at packable otherPackable
      rw [wires, wires, List.append_assoc, List.append_assoc] at same
      obtain ⟨rfl, rest⟩ := wire_eq packable.1 otherPackable.1 (tail_wires false tail vs)
        (tail_wires false otherTail others) same
      cases ih packable.2 otherPackable.2 rest with
      | inl before => exact .inl (List.cons_prefix_cons.mpr ⟨rfl, before⟩)
      | inr after => exact .inr (List.cons_prefix_cons.mpr ⟨rfl, after⟩)

end FdbGo.Tuple
