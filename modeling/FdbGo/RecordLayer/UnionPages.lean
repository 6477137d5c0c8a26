import FdbGo.RecordLayer.MergeChildren

/-! The union cursor in pages: whatever limits stop its children, the pages together are
every key of some child once, in order, with the row of the first child that has it. -/

set_option autoImplicit false

namespace FdbGo.RecordLayer

open Client Foundation MergeChildState Spot RecordCursorContinuation

variable {T K : Type}

/-! ## The chosen children -/

def Holds (key : T → K) (k : K) (values : List (Option T)) (i : Nat) : Prop :=
  ∃ v, values[i]? = some (some v) ∧ key v = k

variable {k : K} {x : Option T}

theorem holds_append {key : T → K} {values : List (Option T)} {i : Nat} :
    Holds key k (values ++ [x]) i ↔ Holds key k values i ∨ i = values.length ∧ ∃ v, x = some v ∧ key v = k := by
  rcases lt_trichotomy i values.length with before | same | after
  · simp only [Holds, List.getElem?_append_left before, before.ne, false_and, or_false]
  · subst same
    simp [Holds]
  · have past : (values ++ [x])[i]? = none := List.getElem?_eq_none (by simpa using Nat.succ_le_of_lt after)
    simp [Holds, past, List.getElem?_eq_none after.le, after.ne']

variable [LinearOrder K] {key : T → K} {reverse : Bool}

structure Chooses (key : T → K) (reverse : Bool) (values : List (Option T)) (k : K) (value : T) (indices : List Nat) :
    Prop where
  least : ∀ v, some v ∈ values → key v = k ∨ Precedes reverse k (key v)
  indices : ∀ i, i ∈ indices ↔ Holds key k values i
  first : values.findSome? (Option.filter fun v => decide (key v = k)) = some value

namespace Chooses

variable {values : List (Option T)} {k : K} {value : T} {indices : List Nat}

private theorem skip (chooses : Chooses key reverse values k value indices)
    (later : ∀ v, x = some v → Precedes reverse k (key v)) : Chooses key reverse (values ++ [x]) k value indices := by
  refine ⟨fun v member => ?_, fun i => ?_, ?_⟩
  · cases List.mem_append.mp member with
    | inl before => exact chooses.least v before
    | inr isLast => exact .inr (later v (List.mem_singleton.mp isLast).symm)
  · rw [chooses.indices, holds_append]
    refine ⟨.inl, fun found => found.resolve_right fun last => ?_⟩
    obtain ⟨_, v, isLast, same⟩ := last
    exact (later v isLast).ne same.symm
  · rw [List.findSome?_append, chooses.first]
    rfl

variable {v : T}

private theorem join (chooses : Chooses key reverse values k value indices) (same : key v = k) :
    Chooses key reverse (values ++ [some v]) k value (indices ++ [values.length]) := by
  refine ⟨fun w member => ?_, fun i => ?_, ?_⟩
  · cases List.mem_append.mp member with
    | inl before => exact chooses.least w before
    | inr isLast =>
      cases List.mem_singleton.mp isLast
      exact .inl same
  · rw [List.mem_append, chooses.indices, holds_append, List.mem_singleton]
    refine or_congr_right ⟨fun last => ⟨last, v, rfl, same⟩, And.left⟩
  · rw [List.findSome?_append, chooses.first]
    rfl

private theorem lead (before : ∀ w, some w ∈ values → Precedes reverse (key v) (key w)) :
    Chooses key reverse (values ++ [some v]) (key v) v [values.length] := by
  refine ⟨fun w member => ?_, fun i => ?_, ?_⟩
  · cases List.mem_append.mp member with
    | inl earlier => exact .inr (before w earlier)
    | inr isLast =>
      cases List.mem_singleton.mp isLast
      exact .inl rfl
  · rw [List.mem_singleton, holds_append]
    refine ⟨fun last => .inr ⟨last, v, rfl, rfl⟩, fun found => ?_⟩
    cases found with
    | inl earlier =>
      obtain ⟨w, here, same⟩ := earlier
      exact absurd same.symm (before w (List.mem_of_getElem? here)).ne
    | inr last => exact last.1
  · have absent : values.findSome? (Option.filter fun w => decide (key w = key v)) = none := by
      rw [List.findSome?_eq_none_iff]
      intro x member
      cases x with
      | none => rfl
      | some w => simp [Option.filter, (before w member).ne.symm]
    rw [List.findSome?_append, absent]
    simp [Option.filter]

end Chooses

theorem choose_spec (key : T → K) (reverse : Bool) (values : List (Option T)) :
    (values.zipIdx.foldl (chooseState key reverse) [] = [] ∧ ∀ v, some v ∉ values) ∨
      ∃ first others, values.zipIdx.foldl (chooseState key reverse) [] = first :: others ∧
        Chooses key reverse values first.comparisonKey first.value ((first :: others).map ChosenState.index) := by
  induction values using List.reverseRecOn with
  | nil => exact .inl ⟨rfl, fun v never => absurd never List.not_mem_nil⟩
  | append_singleton values x ih =>
    rw [List.zipIdx_append, List.foldl_append, List.zipIdx_singleton, List.foldl_cons, List.foldl_nil, Nat.zero_add]
    cases ih with
    | inl unseen =>
      obtain ⟨chosen, absent⟩ := unseen
      rw [chosen]
      cases x with
      | none => exact .inl ⟨rfl, fun v member => absent v (by simpa using member)⟩
      | some v => exact .inr ⟨_, _, rfl, Chooses.lead fun w member => absurd member (absent w)⟩
    | inr seen =>
      obtain ⟨first, others, chosen, chooses⟩ := seen
      rw [chosen]
      refine .inr ?_
      cases x with
      | none => exact ⟨first, others, rfl, chooses.skip nofun⟩
      | some v =>
        simp only [chooseState]
        rcases precedes_or_eq reverse (key v) first.comparisonKey with before | same | after
        · rw [if_pos before]
          refine ⟨_, _, rfl, Chooses.lead fun w member => ?_⟩
          cases chooses.least w member with
          | inl same => exact same ▸ before
          | inr later => exact before.trans later
        · rw [if_neg (fun before => before.ne same), if_pos same]
          refine ⟨first, others ++ [_], rfl, ?_⟩
          rw [List.map_cons, List.map_append, ← List.cons_append, ← List.map_cons]
          exact chooses.join same
        · rw [if_neg after.asymm, if_neg after.ne.symm]
          exact ⟨first, others, rfl, chooses.skip fun w isLast => Option.some.inj isLast ▸ after⟩

/-! ## The continuation -/

/-- The position of a child is read back. -/
theorem decode_unionState (continuation : RecordCursorContinuation) :
    decodeUnionChild (unionState continuation) = continuation.written ∧
      decodeUnionChild (unionOtherState continuation) = continuation.written := by
  cases continuation with
  | start => exact ⟨rfl, rfl⟩
  | bytes b => cases b <;> exact ⟨rfl, rfl⟩
  | end_ => exact ⟨rfl, rfl⟩

def UnionAt (spots : List (Spot T)) : RecordCursorContinuation → Prop
  | .start => ∀ spot ∈ spots, spot.Marks .start
  | .bytes data =>
    ∃ continuations, decodeUnionContinuation (some data) spots.length = .ok continuations ∧
      List.Forall₂ Spot.Marks spots continuations
  | .end_ => ∀ spot ∈ spots, spot.position = spot.source.rows.length

variable {continuations : List RecordCursorContinuation} {spots : List (Spot T)}

private theorem marks_written (marks : List.Forall₂ Spot.Marks spots continuations) :
    List.Forall₂ Spot.Marks spots (continuations.map written) :=
  List.forall₂_map_right_iff.mpr (marks.imp fun _ _ here => here.written)

private theorem at_end_of_marks (marks : List.Forall₂ Spot.Marks spots continuations)
    (ended : continuations.all isEnd = true) :
    ∀ spot ∈ spots, spot.position = spot.source.rows.length := by
  intro spot member
  obtain ⟨continuation, isContinuation, here⟩ := exists_related (List.Forall₂.flip marks) member
  exact here.at_end (List.all_eq_true.mp ended continuation isContinuation)

private theorem decode_unionMessage (two : 2 ≤ continuations.length) :
    decodeUnionContinuation (some (unionMessage continuations).marshal) continuations.length =
      .ok (continuations.map written) := by
  rw [decodeUnionContinuation, ContinuationMessage.unmarshal_marshal]
  cases continuations with
  | nil => exact absurd two (by simp)
  | cons first rest =>
    cases rest with
    | nil => exact absurd two (by simp)
    | cons second others =>
      simp [unionMessage, decode_unionState, Function.comp_def]

variable {children : List (MergeChildState T)}

/-- The continuation built from the children stands where they stand. -/
theorem buildUnionContinuation_at (two : 2 ≤ spots.length)
    (marks : List.Forall₂ Spot.Marks spots (children.map continuation)) :
    UnionAt spots (buildUnionContinuation children) := by
  rw [buildUnionContinuation, encodeUnionContinuation]
  split_ifs with ended
  · exact at_end_of_marks marks ended
  · have same := marks.length_eq
    refine ⟨_, ?_, marks_written marks⟩
    rw [same]
    exact decode_unionMessage (same ▸ two)

/-- A union is at its end exactly if every child is. -/
theorem buildUnionContinuation_isEnd (children : List (MergeChildState T)) :
    (buildUnionContinuation children).isEnd = children.all fun child => child.continuation.isEnd := by
  rw [buildUnionContinuation, encodeUnionContinuation, List.all_map]
  split_ifs with ended
  · exact ended.symm
  · exact (Bool.eq_false_iff.mpr ended).symm

/-! ## Stops -/

private theorem strengthen_isLimit (reason : Option NoNextReason) (childReason : NoNextReason) :
    ((strengthen reason childReason).getD .sourceExhausted).isLimitReached =
      ((reason.getD .sourceExhausted).isLimitReached || childReason.isLimitReached) := by
  cases reason with
  | none => rfl
  | some reason => cases reason <;> cases childReason <;> rfl

private theorem strengthen_fold (reasons : List NoNextReason) (reason : Option NoNextReason) :
    ((reasons.foldl strengthen reason).getD .sourceExhausted).isLimitReached =
      ((reason.getD .sourceExhausted).isLimitReached || reasons.any NoNextReason.isLimitReached) := by
  induction reasons generalizing reason with
  | nil => rw [List.foldl_nil, List.any_nil, Bool.or_false]
  | cons childReason reasons ih => rw [List.foldl_cons, ih, strengthen_isLimit, List.any_cons, Bool.or_assoc]

variable {spot : Spot T}

section Stops

variable {calm : Prop} (settled : List.Forall₂ (Settled calm) spots children)

include settled

private theorem strongest_isLimit :
    (strongestNoNextReason children).isLimitReached = children.any stoppedByLimit := by
  rw [strongestNoNextReason, strengthen_fold]
  simp only [Option.getD_none, show NoNextReason.sourceExhausted.isLimitReached = false from rfl, Bool.false_or]
  induction settled with
  | nil => rfl
  | cons here _ ih =>
    cases here with
    | held => simpa [value?, RecordCursorResult.value?, stoppedByLimit,
        noNextReason?] using ih
    | exhausted =>
      simpa [value?, RecordCursorResult.value?, stoppedByLimit,
        noNextReason?, NoNextReason.isLimitReached] using ih
    | limited _ isLimit =>
      simp [value?, RecordCursorResult.value?, stoppedByLimit,
        noNextReason?, isLimit]

omit settled in
/-- A child ended exactly if its continuation is the end, unless it holds a row. -/
theorem Settled.isEnd {child : MergeChildState T} (settled : Settled calm spot child) (empty : child.value? = none) :
    child.continuation.isEnd = !child.stoppedByLimit := by
  cases settled with
  | held => cases empty
  | exhausted => rfl
  | limited _ isLimit _ notEnd =>
    rw [stoppedByLimit, noNextReason?]
    simp [notEnd, isLimit]

private theorem all_isEnd (empty : ∀ child ∈ children, child.value? = none) :
    (children.all fun child => child.continuation.isEnd) = !children.any stoppedByLimit := by
  induction settled with
  | nil => rfl
  | cons here _ ih =>
    rw [List.all_cons, List.any_cons, Bool.not_or, here.isEnd (empty _ List.mem_cons_self),
      ih (List.forall_mem_cons.mp empty).2]

theorem stopUnion_run
    (stops : children.any stoppedByLimit = true ∨ ∀ child ∈ children, child.value? = none) :
    ∃ reason, stopUnion children = .ok (.noNext reason (buildUnionContinuation children)) ∧
      (calm → buildUnionContinuation children = .end_) := by
  have consistent : (buildUnionContinuation children).isEnd = !(strongestNoNextReason children).isLimitReached := by
    rw [strongest_isLimit settled, buildUnionContinuation_isEnd]
    cases stops with
    | inl stopped =>
      rw [stopped, Bool.not_true, List.all_eq_false]
      obtain ⟨child, member, limited⟩ := List.any_eq_true.mp stopped
      obtain ⟨spot, _, here⟩ := exists_related settled member
      exact ⟨child, member, Bool.eq_false_iff.mp (here.limit limited).2⟩
    | inr empty => exact all_isEnd settled empty
  refine ⟨strongestNoNextReason children, ?_, fun isCalm => ?_⟩
  · rw [stopUnion, newResultNoNext_ok consistent, if_neg]
    intro wrong
    rw [wrong.1, wrong.2] at consistent
    cases consistent
  · rw [strongest_isLimit settled, calm_going settled isCalm] at consistent
    exact isEnd_iff.mp consistent

end Stops

/-! ## Rows -/

private theorem consumeChosen_eq {chosen : List (ChosenState T K)}
    (indices : ∀ i, i ∈ chosen.map ChosenState.index ↔ Holds key k (children.map value?) i) :
    consumeChosen chosen children = children.map (take (hasKey key k)) := by
  refine List.ext_getElem? fun i => ?_
  rw [consumeChosen, List.getElem?_mapIdx, List.getElem?_map]
  cases here : children[i]? with
  | none => rfl
  | some child =>
    have holds : i ∈ chosen.map ChosenState.index ↔ child.value?.any (hasKey key k) = true := by
      rw [indices, Holds, List.getElem?_map, here, Option.map_some]
      cases child.value? with
      | none => simp
      | some v => simp [hasKey]
    rw [Option.map_some, Option.map_some, take, if_congr holds rfl rfl]

section Pages

variable {sources : List (Source T)}

structure UnionStands (sources : List (Source T)) (reverse : Bool) (page : MergePage) (spots : List (Spot T))
    (cursor : UnionCursor T) : Prop where
  ofSources : spots.map source = sources
  stand : List.Forall₂ (ChildAt page.Calm) spots cursor.children
  going : cursor.lastNoNext = none
  direction : cursor.reverse = reverse

variable {cursor : UnionCursor T} {indices : List Nat} {value : T}

theorem Chooses.holder (chooses : Chooses key reverse (children.map value?) k value indices) :
    ∃ child ∈ children, ∃ v, child.value? = some v ∧ key v = k := by
  obtain ⟨x, member, found⟩ := List.exists_of_findSome?_eq_some chooses.first
  obtain ⟨child, isChild, rfl⟩ := List.mem_map.mp member
  obtain ⟨isValue, holds⟩ := Option.filter_eq_some_iff.mp found
  exact ⟨child, isChild, value, isValue, of_decide_eq_true holds⟩

theorem Chooses.isUnion (chooses : Chooses key reverse (spots.map fun spot => spot.rest.head?) k value indices)
    (rows : ∀ list ∈ spots.map rest, InOrder key reverse list) {more : List T}
    (union : IsUnion key reverse ((spots.map (pass (hasKey key k))).map rest) more) :
    IsUnion key reverse (spots.map rest) (value :: more) := by
  have leads : ∀ list ∈ spots.map rest, Leads key reverse k list := by
    intro list member row head
    obtain ⟨spot, isSpot, rfl⟩ := List.mem_map.mp member
    exact chooses.least row (List.mem_map.mpr ⟨spot, isSpot, head⟩)
  have heads : (spots.map rest).map List.head? = spots.map fun spot => spot.rest.head? := by
    rw [List.map_map]
    rfl
  have passed : (spots.map (pass (hasKey key k))).map rest = (spots.map rest).map (dropHead key k) := by
    rw [List.map_map, List.map_map]
    exact List.map_congr_left fun spot _ => spot.rest_pass key k
  rw [passed] at union
  exact IsUnion.cons rows leads ((firstRow_of_leads rows leads).trans (heads ▸ chooses.first)) union

variable {continuation : RecordCursorContinuation} {page : MergePage}

theorem deliver_run (two : 2 ≤ spots.length) (rows : ∀ list ∈ spots.map rest, InOrder key reverse list)
    (direction : cursor.reverse = reverse) (settled : List.Forall₂ (Settled page.Calm) spots cursor.children)
    (moving : cursor.children.any stoppedByLimit = false)
    (loaded : ∃ child ∈ cursor.children, child.value?.isSome = true) :
    ∃ row k continuation, cursor.deliver (chooseStates key cursor.reverse cursor.children) =
        .ok (.next row continuation, { cursor with children := cursor.children.map (take (hasKey key k)) }) ∧
      UnionAt (spots.map (pass (hasKey key k))) continuation ∧
      (∃ spot ∈ spots, ∃ value, spot.rest.head? = some value ∧ hasKey key k value = true) ∧
      ∀ more, IsUnion key reverse ((spots.map (pass (hasKey key k))).map rest) more →
        IsUnion key reverse (spots.map rest) (row :: more) := by
  subst direction
  have values := values_of_settled settled moving
  cases choose_spec key cursor.reverse (cursor.children.map value?) with
  | inl unseen =>
    obtain ⟨child, member, some⟩ := loaded
    obtain ⟨v, isValue⟩ := Option.isSome_iff_exists.mp some
    exact absurd (List.mem_map.mpr ⟨child, member, isValue⟩) (unseen.2 v)
  | inr seen =>
    obtain ⟨first, others, chosen, chooses⟩ := seen
    obtain ⟨holder, isHolder, v, isValue, isKey⟩ := chooses.holder
    have takes : holder.take (hasKey key first.comparisonKey) = holder.consume := by
      rw [take, if_pos (by rw [isValue]; exact decide_eq_true isKey)]
    have notEnd : (buildUnionContinuation (cursor.children.map (take (hasKey key first.comparisonKey)))).isEnd =
        false := by
      obtain ⟨spot, _, here⟩ := exists_related settled isHolder
      rw [buildUnionContinuation_isEnd, List.all_eq_false]
      exact ⟨_, List.mem_map_of_mem isHolder, Bool.eq_false_iff.mp (takes ▸ here.consume_isEnd isValue)⟩
    refine ⟨first.value, first.comparisonKey,
      buildUnionContinuation (cursor.children.map (take (hasKey key first.comparisonKey))), ?_, ?_, ?_,
      fun more union => (values ▸ chooses).isUnion rows union⟩
    · rw [chooseStates, chosen]
      simp only [UnionCursor.deliver, consumeChosen_eq chooses.indices, RecordCursorResult.newResultWithValue, notEnd]
      rfl
    · have taken : List.Forall₂ (ChildAt page.Calm) (spots.map (pass (hasKey key first.comparisonKey)))
          (cursor.children.map (take (hasKey key first.comparisonKey))) := take_all settled moving
      exact buildUnionContinuation_at (by rwa [List.length_map]) (marks_of_children taken)
    · have member : some v ∈ spots.map fun spot => spot.rest.head? := values ▸ List.mem_map.mpr ⟨holder, isHolder, isValue⟩
      obtain ⟨spot, isSpot, head⟩ := List.mem_map.mp member
      exact ⟨spot, isSpot, v, head, decide_eq_true isKey⟩

theorem UnionAt.decodes (stands : UnionAt spots continuation) (notEnd : continuation.isEnd = false) :
    ∃ continuations, decodeUnionContinuation continuation.toBytes spots.length = .ok continuations ∧
      List.Forall₂ Spot.Marks spots continuations := by
  cases continuation with
  | start => exact ⟨_, rfl, forall₂_replicate stands⟩
  | bytes data => exact stands
  | end_ => cases notEnd

private theorem newUnionChild_fresh {calm : Prop} {schedule : Schedule} (follows : spot.source.Follows schedule)
    (delivers : calm → Delivers schedule) (marks : spot.Marks continuation) :
    Fresh calm spot (newUnionChild (openChild spot.source schedule) continuation) := by
  cases ended : continuation.isEnd with
  | true =>
    have atEnd := marks.at_end ended
    have child : newUnionChild (openChild spot.source schedule) continuation = ⟨none, none, .end_, true⟩ := by
      rw [newUnionChild, mergeStateCursor, if_pos ended]
    rw [child]
    exact ⟨marks_end atEnd, .ended atEnd, rfl⟩
  | false =>
    have child : newUnionChild (openChild spot.source schedule) continuation =
        ⟨some (openChild spot.source schedule continuation.toBytes), none, continuation, true⟩ := by
      rw [newUnionChild, mergeStateCursor, if_neg (Bool.eq_false_iff.mp ended)]
    rw [child]
    exact ⟨marks, reads_opened follows delivers marks ended, rfl⟩

variable (two : 2 ≤ sources.length)

include two

private theorem union_opened (legal : page.Legal sources)
    (ofSources : spots.map source = sources) (stands : UnionAt spots continuation)
    (notEnd : continuation.isEnd = false) :
    ∃ cursor, union reverse (page.fns sources) continuation.toBytes = .ok cursor ∧
      UnionStands sources reverse page spots cursor := by
  obtain ⟨continuations, decoded, marks⟩ := stands.decodes notEnd
  subst ofSources
  refine ⟨{ children := List.zipWith newUnionChild (page.fns (spots.map source)) continuations, reverse }, ?_, rfl, ?_, rfl, rfl⟩
  · rw [List.length_map] at two
    rw [union, newUnionChildren, fns_length legal, if_neg two.not_gt, decoded]
    rfl
  · exact open_children newUnionChild_fresh legal (fun isCalm => isCalm) marks

variable (inOrder : ∀ source ∈ sources, InOrder key reverse source.rows)

include inOrder

private theorem union_next (stands : UnionStands sources reverse page spots cursor) :
    ∃ result cursor' spots', cursor.onNext key = .ok (result, cursor') ∧
      (spots'.map source = sources ∧ UnionAt spots' result.getContinuation) ∧
      Outcome (UnionStands sources reverse page) page.Calm (fun spots => IsUnion key reverse (spots.map rest)) totalSize
        spots spots' cursor' result := by
  obtain ⟨children, isReverse, lastNoNext⟩ := cursor
  obtain ⟨ofSources, stand, going, direction⟩ := stands
  dsimp only at going direction
  subst going direction
  have enough : 2 ≤ spots.length := by rwa [← ofSources, List.length_map] at two
  have settled := advance_all stand
  simp only [UnionCursor.onNext]
  generalize children.map advanceIfNeeded = advanced at settled ⊢
  by_cases stops : advanced.any stoppedByLimit = true ∨ ∀ child ∈ advanced, child.value? = none
  · obtain ⟨reason, stopped, calmly⟩ := stopUnion_run settled stops
    have stand' : List.Forall₂ (ChildAt page.Calm) spots advanced := settled.imp fun _ _ here => .inr here
    refine ⟨.noNext reason (buildUnionContinuation advanced),
      ⟨advanced, isReverse, some (.noNext reason (buildUnionContinuation advanced))⟩, spots, ?_,
      ⟨ofSources, buildUnionContinuation_at enough (marks_of_children stand')⟩, calmly, le_rfl, fun rows union => union⟩
    rw [UnionCursor.stop, stopped]
    cases stops with
    | inl limited =>
      rw [if_pos limited]
      rfl
    | inr empty =>
      have none : (!advanced.any fun child => child.value?.isSome) = true := by simpa using empty
      rw [if_pos none, ite_self]
      rfl
  · obtain ⟨moving, loaded⟩ := not_or.mp stops
    rw [Bool.not_eq_true] at moving
    have holder : ∃ child ∈ advanced, child.value?.isSome = true := by
      push Not at loaded
      obtain ⟨child, member, some⟩ := loaded
      exact ⟨child, member, Option.isSome_iff_ne_none.mpr some⟩
    obtain ⟨row, k, continuation, delivered, stands', some, meaning⟩ :=
      @deliver_run T K _ key isReverse spots ⟨advanced, isReverse, none⟩ page enough (rest_inOrder inOrder ofSources) rfl
        settled moving holder
    refine ⟨.next row continuation, ⟨advanced.map (take (hasKey key k)), isReverse, none⟩,
      spots.map (pass (hasKey key k)), ?_, ⟨(source_pass_all spots).trans ofSources, stands'⟩,
      ⟨(source_pass_all spots).trans ofSources, take_all settled moving, rfl, rfl⟩, totalSize_pass some, meaning⟩
    have any : (!advanced.any fun child => child.value?.isSome) = false := by simpa using holder
    rw [if_neg (Bool.eq_false_iff.mp moving), if_neg (Bool.eq_false_iff.mp any), delivered]

private theorem union_pageable :
    Pageable (UnionCursor.onNext key) (fun page => union reverse (page.fns sources)) (MergePage.Legal sources)
      MergePage.Calm (UnionStands sources reverse)
      (fun spots continuation => spots.map source = sources ∧ UnionAt spots continuation)
      (fun spots => IsUnion key reverse (spots.map rest)) totalSize where
  opened := by
    intro page spots continuation legal stands notEnd
    exact union_opened two legal stands.1 stands.2 notEnd
  ended := by
    intro spots stands
    refine isUnion_nil fun list member => ?_
    obtain ⟨spot, isSpot, rfl⟩ := List.mem_map.mp member
    exact rest_eq_nil (stands.2 spot isSpot)
  next := by
    intro page spots cursor stands
    exact union_next two inOrder stands

def unionPages (key : T → K) (reverse : Bool) (sources : List (Source T)) (pages : List MergePage) :
    Except CursorError (List T × RecordCursorContinuation) :=
  readPages (UnionCursor.onNext key) (fun page => union reverse (page.fns sources)) MergePage.limit pages .start

end Pages

/-- Every list of pages is read without an error. Once they reach the end, their rows are the
union of the sources, and a page without early stops that is long enough reaches it. -/
theorem union_pages_exact (key : T → K) (reverse : Bool) (sources : List (Source T)) (two : 2 ≤ sources.length)
    (inOrder : ∀ source ∈ sources, InOrder key reverse source.rows) (pages : List MergePage)
    (legal : ∀ page ∈ pages, page.Legal sources) :
    ∃ rows last, unionPages key reverse sources pages = .ok (rows, last) ∧
      (last = .end_ → IsUnion key reverse (sources.map Source.rows) rows) ∧
      ((∃ page ∈ pages, page.Calm ∧ (sources.map fun source => source.rows.length).sum < page.limit) → last = .end_) := by
  have start : UnionAt (startSpots sources) .start := marks_startSpots sources
  obtain ⟨rows, last, read, complete, reaches⟩ :=
    (union_pageable two inOrder).readPages_run MergePage.limit legal ⟨source_startSpots sources, start⟩
  rw [rest_startSpots] at complete
  rw [totalSize_startSpots] at reaches
  exact ⟨rows, last, read, complete, reaches⟩

theorem union_pages_exact_paused :
    ∃ rows last, unionPages (id : Nat → Nat) false [countedSource [1, 3], countedSource [1, 2]]
        [⟨9, [paused, steady]⟩, ⟨9, [steady, steady]⟩] = .ok (rows, last) ∧
      last = .end_ ∧ IsUnion (id : Nat → Nat) false [[1, 3], [1, 2]] rows := by
  obtain ⟨rows, last, read, complete, reaches⟩ :=
    union_pages_exact (id : Nat → Nat) false [countedSource [1, 3], countedSource [1, 2]] (by decide)
      (by simp [countedSource, InOrder, Precedes]) [⟨9, [paused, steady]⟩, ⟨9, [steady, steady]⟩]
      (paused_legal 9 _ _)
  have ended : last = .end_ := reaches ⟨⟨9, [steady, steady]⟩, by simp, steady_calm 9, by decide⟩
  exact ⟨rows, last, read, ended, complete ended⟩

end FdbGo.RecordLayer
