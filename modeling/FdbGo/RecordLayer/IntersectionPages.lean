import FdbGo.RecordLayer.MergeChildren

/-! The intersection cursors in pages: whatever limits stop their children, also while some
of them catch up with the others, the pages together are the keys that all children have,
each once and in order. -/

set_option autoImplicit false

namespace FdbGo.RecordLayer

open Client Foundation Spot IntersectionCursor MergeChildState NoNextReason

variable {T K : Type}

/-! ## The continuation -/

def writtenResume (continuation : RecordCursorContinuation) : IntersectionChildResume :=
  resumeOfState (intersectionState continuation)

theorem initial_writtenResume (continuation : RecordCursorContinuation) :
    initialIntersectionContinuation (writtenResume continuation) = continuation.written := by
  cases continuation with
  | start => rfl
  | bytes b => cases b <;> rfl
  | end_ => rfl

variable {continuations : List RecordCursorContinuation} {continuation : RecordCursorContinuation}

private theorem intersectionMessage_flag (some : continuations ≠ []) :
    (intersectionMessage continuations).first.flag.isSome = true := by
  cases continuations with
  | nil => exact absurd rfl some
  | cons first rest =>
    cases rest with
    | nil => rfl
    | cons second others => rfl

private theorem marshal_ne_nil (some : continuations ≠ []) : (intersectionMessage continuations).marshal ≠ [] := by
  intro empty
  have read := ContinuationMessage.unmarshal_marshal (intersectionMessage continuations)
  rw [empty] at read
  have flag := intersectionMessage_flag some
  rw [← Option.some.inj read] at flag
  cases flag

/-- A written continuation gives every child its own position back. -/
theorem decode_intersectionMessage (some : continuations ≠ []) :
    decodeIntersectionContinuation (.some (intersectionMessage continuations).marshal) continuations.length =
      .ok (continuations.map writtenResume) := by
  have read := ContinuationMessage.unmarshal_marshal (intersectionMessage continuations)
  have nonempty := marshal_ne_nil some
  revert read nonempty
  generalize (intersectionMessage continuations).marshal = data
  intro read nonempty
  cases data with
  | nil => exact absurd rfl nonempty
  | cons b bs =>
    simp only [decodeIntersectionContinuation, Option.getD_some, read]
    cases continuations with
    | nil => exact absurd rfl some
    | cons first rest =>
      cases rest with
      | nil => rfl
      | cons second others =>
        have flag : ∀ continuation, (intersectionState continuation).flag.isSome = true := fun _ => rfl
        simp [intersectionMessage, flag, writtenResume, Function.comp_def, List.take_of_length_le]

def IntersectionAt (spots : List (Spot T)) : RecordCursorContinuation → Prop
  | .start => ∀ spot ∈ spots, spot.Marks .start
  | .bytes data =>
    ∃ continuations, decodeIntersectionContinuation (some data) spots.length = .ok (continuations.map writtenResume) ∧
      List.Forall₂ Spot.Marks spots continuations
  | .end_ => ∃ spot ∈ spots, spot.rest = []

variable {children : List (MergeChildState T)} {spots : List (Spot T)}

/-- The continuation built from the children stands where they stand. -/
theorem buildIntersectionContinuation_at (some : spots ≠ [])
    (marks : List.Forall₂ Spot.Marks spots (children.map MergeChildState.continuation)) :
    IntersectionAt spots (buildIntersectionContinuation children) := by
  have same := marks.length_eq
  refine ⟨_, ?_, marks⟩
  rw [same]
  refine decode_intersectionMessage fun empty => some ?_
  rw [empty] at same
  exact List.eq_nil_of_length_eq_zero same

theorem IntersectionAt.decodes (stands : IntersectionAt spots continuation) (notEnd : continuation.isEnd = false) :
    ∃ continuations, decodeIntersectionContinuation continuation.toBytes spots.length = .ok (continuations.map writtenResume) ∧
      List.Forall₂ Spot.Marks spots continuations := by
  cases continuation with
  | start =>
    refine ⟨_, ?_, forall₂_replicate stands⟩
    rw [List.map_replicate]
    rfl
  | bytes data => exact stands
  | end_ => cases notEnd

variable {spot : Spot T}

private theorem newIntersectionChild_fresh {calm : Prop} {schedule : Schedule} (follows : spot.source.Follows schedule)
    (delivers : calm → Delivers schedule) (marks : spot.Marks continuation) :
    Fresh calm spot (newIntersectionChild (openChild spot.source schedule) (writtenResume continuation)) := by
  have written : (newIntersectionChild (openChild spot.source schedule) (writtenResume continuation)).continuation =
      continuation.written := initial_writtenResume continuation
  refine ⟨written ▸ marks.written, ?_, rfl⟩
  cases continuation with
  | start => exact reads_opened follows delivers marks rfl
  | bytes b =>
    cases b with
    | nil | cons b bs => exact reads_opened follows delivers marks rfl
  | end_ => exact .ended (marks.at_end rfl)

/-! ## Stops -/

variable {child : MergeChildState T}

variable {calm : Prop}

private theorem weaken_isLimit (reasons : List NoNextReason) (weakest : NoNextReason) (isLimit : weakest.isLimitReached = true) :
    (weaken (some weakest) reasons).isLimitReached = reasons.all isLimitReached := by
  induction reasons generalizing weakest with
  | nil => exact isLimit
  | cons reason reasons ih =>
    rw [weaken, List.all_cons]
    split_ifs with exhausted weaker
    · rw [exhausted]
      rfl
    · have limit : reason.isLimitReached = true := decide_eq_true exhausted
      rw [ih reason limit, limit, Bool.true_and]
    · have limit : reason.isLimitReached = true := decide_eq_true exhausted
      rw [ih weakest isLimit, limit, Bool.true_and]

private theorem weaken_none {reasons : List NoNextReason} (some : reasons ≠ []) :
    (weaken none reasons).isLimitReached = reasons.all isLimitReached := by
  cases reasons with
  | nil => exact absurd rfl some
  | cons reason reasons =>
    rw [weaken, List.all_cons]
    split_ifs with exhausted
    · rw [exhausted]
      rfl
    · have limit : reason.isLimitReached = true := decide_eq_true exhausted
      rw [weaken_isLimit reasons reason limit, limit, Bool.true_and]

theorem Settled.reason (settled : Settled calm spot child) (empty : child.value? = none) :
    ∃ reason, child.noNextReason? = some reason := by
  cases settled with
  | held => cases empty
  | exhausted => exact ⟨_, rfl⟩
  | limited => exact ⟨_, rfl⟩

theorem Settled.ofReason {reason : NoNextReason} (settled : Settled calm spot child)
    (stopped : child.noNextReason? = some reason) :
    (reason.isLimitReached = true → ¬ calm) ∧ (reason.isLimitReached = false → spot.rest = []) := by
  cases settled with
  | held => cases stopped
  | exhausted atEnd =>
    cases stopped
    exact ⟨nofun, fun _ => rest_eq_nil atEnd⟩
  | limited restless isLimit =>
    cases stopped
    exact ⟨fun _ => restless, fun never => absurd (isLimit.symm.trans never) (by decide)⟩

/-- A child without a row stops the intersection: for good if one is exhausted. -/
theorem stopIntersection_run (settled : List.Forall₂ (Settled calm) spots children)
    (empty : ∃ child ∈ children, child.value? = none) :
    ∃ reason continuation, stopIntersection children = .ok (.noNext reason continuation) ∧
      IntersectionAt spots continuation ∧ (calm → continuation = .end_) := by
  obtain ⟨child, isChild, noValue⟩ := empty
  obtain ⟨spot, isSpot, here⟩ := exists_related settled isChild
  obtain ⟨reason, stopped⟩ := here.reason noValue
  have member : reason ∈ children.filterMap noNextReason? := List.mem_filterMap.mpr ⟨child, isChild, stopped⟩
  have weakest : (weakestNoNextReason children).isLimitReached =
      (children.filterMap noNextReason?).all isLimitReached :=
    weaken_none (List.ne_nil_of_mem member)
  cases all : (children.filterMap noNextReason?).all isLimitReached with
  | true =>
    rw [all] at weakest
    have stand : List.Forall₂ (ChildAt calm) spots children := settled.imp fun _ _ here => .inr here
    have limited := Bool.eq_false_iff.mpr (not_exhausted weakest)
    have consistent : (buildIntersectionContinuation children).isEnd = !(weakestNoNextReason children).isLimitReached := by
      rw [weakest]
      rfl
    refine ⟨weakestNoNextReason children, buildIntersectionContinuation children, ?_,
      buildIntersectionContinuation_at (List.ne_nil_of_mem isSpot) (marks_of_children stand), fun isCalm => ?_⟩
    · rw [stopIntersection, limited]
      exact newResultNoNext_ok consistent
    · exact absurd isCalm ((here.ofReason stopped).1 (List.all_eq_true.mp all reason member))
  | false =>
    rw [all] at weakest
    have exhausted : (weakestNoNextReason children).isSourceExhausted = true := by
      rw [isLimitReached_eq] at weakest
      simpa using weakest
    obtain ⟨ended, isEnded, noLimit⟩ := List.all_eq_false.mp all
    obtain ⟨other, isOther, otherStopped⟩ := List.mem_filterMap.mp isEnded
    obtain ⟨last, isLast, there⟩ := exists_related settled isOther
    refine ⟨.sourceExhausted, .end_, ?_, ⟨last, isLast, ?_⟩, fun _ => rfl⟩
    · rw [stopIntersection, exhausted]
      rfl
    · exact (there.ofReason otherStopped).2 (Bool.eq_false_iff.mpr noLimit)

section Loaded

variable (loaded : ∀ child ∈ children, child.value? ≠ none)

include loaded

theorem moving_of_loaded (settled : List.Forall₂ (Settled calm) spots children) :
    children.any stoppedByLimit = false := by
  rw [List.any_eq_false]
  intro child member stopped
  obtain ⟨spot, _, here⟩ := exists_related settled member
  cases here with
  | held => cases stopped
  | exhausted => cases stopped
  | limited => exact loaded _ member rfl

/-! ## Rounds -/

private theorem map_some_filterMap : (children.filterMap value?).map some = children.map value? := by
  induction children with
  | nil => rfl
  | cons child children ih =>
    obtain ⟨value, isValue⟩ := Option.ne_none_iff_exists'.mp (loaded child List.mem_cons_self)
    rw [List.filterMap_cons_some isValue, List.map_cons, List.map_cons, isValue,
      ih (List.forall_mem_cons.mp loaded).2]

private theorem take_const_true : children.map consume = children.map (take fun _ => true) := by
  refine List.map_congr_left fun child member => ?_
  obtain ⟨value, isValue⟩ := Option.ne_none_iff_exists'.mp (loaded child member)
  rw [take, isValue, Option.any_some, if_pos rfl]

variable [LinearOrder K] {key : T → K} {reverse : Bool}

private theorem discardTo_eq_take (target : K) :
    children.map (discardTo key target) = children.map (take fun row => !hasKey key target row) := by
  refine List.map_congr_left fun child member => ?_
  obtain ⟨value, isValue⟩ := Option.ne_none_iff_exists'.mp (loaded child member)
  by_cases same : key value = target
  · simp [take, discardTo, isValue, hasKey, same]
  · simp [take, discardTo, isValue, hasKey, same]

end Loaded

variable {values : List T} {target : K}

theorem exists_head {value : T} (loaded : values.map some = spots.map fun spot => spot.rest.head?)
    (isValue : value ∈ values) : ∃ spot ∈ spots, spot.rest.head? = some value :=
  List.mem_map.mp (loaded ▸ List.mem_map_of_mem isValue)

private theorem heads_of_match {key : T → K} (loaded : values.map some = spots.map fun spot => spot.rest.head?)
    (same : ∀ value ∈ values, key value = target) :
    Heads key target values (spots.map rest) ((spots.map (pass fun _ => true)).map rest) := by
  induction spots generalizing values with
  | nil =>
    cases values with
    | nil => exact .nil
    | cons value values => cases loaded
  | cons spot spots ih =>
    cases values with
    | nil => cases loaded
    | cons value values =>
      rw [List.map_cons, List.map_cons, List.cons.injEq] at loaded
      have rest : spot.rest = value :: spot.rest.tail := (List.cons_head?_tail loaded.1.symm).symm
      have passed : (spot.pass fun _ => true).rest = spot.rest.tail := by
        rw [Spot.pass, ← loaded.1, Option.any_some, if_pos rfl, rest_next]
      rw [List.map_cons, List.map_cons, List.map_cons, passed, rest, List.tail_cons]
      exact .cons (same value List.mem_cons_self) (ih loaded.2 (List.forall_mem_cons.mp same).2)

variable [LinearOrder K] {key : T → K} {reverse : Bool}

/-- The key is the last of all. -/
structure IsLast (key : T → K) (reverse : Bool) (values : List T) (target : K) : Prop where
  held : ∃ value ∈ values, key value = target
  last : ∀ value ∈ values, key value = target ∨ Precedes reverse (key value) target

theorem IsLast.append (isLast : IsLast key reverse values target) (value : T) :
    IsLast key reverse (values ++ [value]) (if Precedes reverse target (key value) then key value else target) := by
  obtain ⟨⟨holder, isHolder, holds⟩, last⟩ := isLast
  split_ifs with later
  · refine ⟨⟨value, by simp, rfl⟩, List.forall_mem_append.mpr ⟨fun other before => ?_, by simp⟩⟩
    cases last other before with
    | inl same => exact .inr (same ▸ later)
    | inr earlier => exact .inr (earlier.trans later)
  · refine ⟨⟨holder, List.mem_append_left _ isHolder, holds⟩, List.forall_mem_append.mpr ⟨last, List.forall_mem_singleton.mpr ?_⟩⟩
    rcases precedes_or_eq reverse (key value) target with before | same | after
    · exact .inr before
    · exact .inl same
    · exact absurd after later

private theorem maxKey_isLast (key : T → K) (reverse : Bool) (first : T) (rest : List T) :
    IsLast key reverse (first :: rest) (maxKey key reverse first rest) := by
  induction rest using List.reverseRecOn with
  | nil => exact ⟨⟨first, by simp, rfl⟩, fun value member => .inl (congrArg key (List.mem_singleton.mp member))⟩
  | append_singleton rest value ih =>
    rw [maxKey, List.foldl_append]
    exact ih.append value

private theorem skips_of_discard (loaded : values.map some = spots.map fun spot => spot.rest.head?)
    (isLast : IsLast key reverse values target) (rows : ∀ list ∈ spots.map rest, InOrder key reverse list) :
    List.Forall₂ (Skips key (spots.map rest)) (spots.map rest)
      ((spots.map (pass fun row => !hasKey key target row)).map rest) := by
  obtain ⟨holder, isHolder, holds⟩ := isLast.held
  obtain ⟨other, isOther, head⟩ := exists_head loaded isHolder
  have leads : Leads key reverse target other.rest := by
    intro row isRow
    rw [head] at isRow
    cases isRow
    exact .inl holds
  rw [List.map_map, List.forall₂_map_left_iff, List.forall₂_map_right_iff, List.forall₂_same]
  intro spot isSpot
  cases first : spot.rest.head? with
  | none =>
    refine .inl ?_
    rw [Function.comp_apply, Spot.pass, first, if_neg (by simp)]
  | some value =>
    by_cases same : key value = target
    · refine .inl ?_
      rw [Function.comp_apply, Spot.pass, first, if_neg (by simp [hasKey, same])]
    · have taken : (spot.pass fun row => !hasKey key target row).rest = spot.rest.tail := by
        rw [Spot.pass, first, if_pos (by simp [hasKey, same]), rest_next]
      have isValue : value ∈ values := by
        have found : some value ∈ values.map some := loaded ▸ List.mem_map.mpr ⟨spot, isSpot, first⟩
        simpa using found
      have before := (isLast.last value isValue).resolve_left same
      refine .inr ⟨value, ?_, other.rest, List.mem_map_of_mem isOther, fun x isX matched => ?_⟩
      · rw [Function.comp_apply, taken]
        exact (List.cons_head?_tail first).symm
      · cases leads.all (rows _ (List.mem_map_of_mem isOther)) isX with
        | inl isTarget => exact before.ne (matched.symm.trans isTarget)
        | inr after => exact (before.trans after).ne matched.symm

/-! ## The loop -/

structure RoundAt (sources : List (Source T)) (calm : Prop) (spots : List (Spot T))
    (children : List (MergeChildState T)) : Prop where
  ofSources : spots.map source = sources
  stand : List.Forall₂ (ChildAt calm) spots children

variable {sources : List (Source T)}

def LoopResult (key : T → K) (reverse : Bool) (sources : List (Source T)) (calm : Prop) (spots : List (Spot T))
    (run : Except CursorError (RecordCursorResult (List T) × List (MergeChildState T))) : Prop :=
  ∃ result children' spots', run = .ok (result, children') ∧
    (spots'.map source = sources ∧ IntersectionAt spots' result.getContinuation) ∧
    (∀ values, result.value? = some values → values ≠ []) ∧
    Outcome (RoundAt sources calm) calm (fun spots => IsIntersection key reverse (spots.map rest)) totalSize
      spots spots' children' result

theorem deliverIntersection_run (some : spots ≠ []) (ofSources : spots.map source = sources)
    (rows : ∀ list ∈ spots.map rest, InOrder key reverse list) (settled : List.Forall₂ (Settled calm) spots children)
    (loaded : ∀ child ∈ children, child.value? ≠ none) (heads : values.map .some = spots.map fun spot => spot.rest.head?)
    (same : ∀ value ∈ values, key value = target) :
    LoopResult key reverse sources calm spots (deliverIntersection values children) := by
  have taken : List.Forall₂ (ChildAt calm) (spots.map (pass fun _ => true)) (children.map consume) := by
    rw [take_const_true loaded]
    exact take_all settled (moving_of_loaded loaded settled)
  have ofSources' := (source_pass_all (p := fun _ => true) spots).trans ofSources
  have nonempty : values ≠ [] := by
    rintro rfl
    exact some (List.map_eq_nil_iff.mp heads.symm)
  have some' : spots.map (pass fun _ => true) ≠ [] := fun empty => some (List.map_eq_nil_iff.mp empty)
  refine ⟨.next values (buildIntersectionContinuation (children.map consume)),
    children.map consume, spots.map (pass fun _ => true), rfl,
    ⟨ofSources', buildIntersectionContinuation_at some' (marks_of_children taken)⟩, fun _ isValues => ?_,
    ⟨ofSources', taken⟩, totalSize_pass ?_, fun more meets => IsIntersection.cons (heads_of_match heads same) rows meets⟩
  · cases isValues
    exact nonempty
  · obtain ⟨value, isValue⟩ := List.exists_mem_of_ne_nil values nonempty
    obtain ⟨spot, isSpot, head⟩ := exists_head heads isValue
    exact ⟨spot, isSpot, value, head, rfl⟩

theorem LoopResult.skip {spots' : List (Spot T)} {run : Except CursorError (RecordCursorResult (List T) × List (MergeChildState T))}
    (result : LoopResult key reverse sources calm spots' run) (smaller : totalSize spots' ≤ totalSize spots)
    (skips : List.Forall₂ (Skips key (spots.map rest)) (spots.map rest) (spots'.map rest)) :
    LoopResult key reverse sources calm spots run := by
  obtain ⟨result, children', spots'', ran, stands, nonempty, outcome⟩ := result
  refine ⟨result, children', spots'', ran, stands, nonempty, ?_⟩
  cases result with
  | next values continuation =>
    obtain ⟨goes, less, meaning⟩ := outcome
    exact ⟨goes, less.trans_le smaller, fun more meets => (meaning more meets).skip skips⟩
  | noNext reason continuation =>
    obtain ⟨ends, less, meaning⟩ := outcome
    exact ⟨ends, less.trans smaller, fun more meets => (meaning more meets).skip skips⟩

variable (nonempty : sources ≠ []) (inOrder : ∀ source ∈ sources, InOrder key reverse source.rows)

include nonempty inOrder in
theorem intersectionLoop_run {fuel : Nat} (round : RoundAt sources calm spots children) (enough : totalSize spots < fuel) :
    LoopResult key reverse sources calm spots (intersectionLoop key reverse fuel children) := by
  induction fuel generalizing spots children with
  | zero => exact absurd enough (Nat.not_lt_zero _)
  | succ fuel ih =>
    obtain ⟨ofSources, stand⟩ := round
    have rows := rest_inOrder inOrder ofSources
    have someSpot : spots ≠ [] := by
      rintro rfl
      exact nonempty ofSources.symm
    have settled := advance_all stand
    rw [intersectionLoop]
    generalize children.map advanceIfNeeded = advanced at settled ⊢
    by_cases empty : ∃ child ∈ advanced, child.value? = none
    · obtain ⟨reason, continuation, stopped, stands, calmly⟩ := stopIntersection_run settled empty
      refine ⟨.noNext reason continuation, advanced, spots, ?_, ⟨ofSources, stands⟩, nofun, calmly, le_rfl, fun _ meets => meets⟩
      have any : (advanced.any fun child => child.value?.isNone) = true := by simpa using empty
      rw [if_pos any, stopped]
      rfl
    · have loaded : ∀ child ∈ advanced, child.value? ≠ none := fun child member noValue => empty ⟨child, member, noValue⟩
      have any : ¬ (advanced.any fun child => child.value?.isNone) = true := by simpa using empty
      have moving := moving_of_loaded loaded settled
      have heads := (map_some_filterMap loaded).trans (values_of_settled settled moving)
      rw [if_neg any]
      cases values : advanced.filterMap value? with
      | nil =>
        rw [values] at heads
        exact absurd (List.map_eq_nil_iff.mp heads.symm) someSpot
      | cons first rest =>
        rw [values] at heads
        dsimp only
        have isLast := maxKey_isLast key reverse first rest
        by_cases all : ((first :: rest).all fun value => decide (key value = maxKey key reverse first rest)) = true
        · rw [if_pos all]
          exact deliverIntersection_run someSpot ofSources rows settled loaded heads (by simpa using all)
        · rw [if_neg all, discardTo_eq_take loaded]
          have discards : ∃ spot ∈ spots, ∃ value, spot.rest.head? = .some value ∧
              (!hasKey key (maxKey key reverse first rest) value) = true := by
            obtain ⟨value, isValue, differs⟩ := List.all_eq_false.mp (Bool.eq_false_iff.mpr all)
            obtain ⟨spot, isSpot, head⟩ := exists_head heads isValue
            exact ⟨spot, isSpot, value, head, by simpa [hasKey] using differs⟩
          have smaller := totalSize_pass discards
          exact (ih ⟨(source_pass_all spots).trans ofSources, take_all settled moving⟩ (by omega)).skip smaller.le
            (skips_of_discard heads isLast rows)

theorem Reads.size_le {source : Source T} {position : Nat} {cursor : Option (ChildCursor T)}
    (reads : Reads calm source position cursor) :
    source.rows.length - position + 1 ≤ cursor.elim 1 fun cursor => cursor.source.rows.length + 1 := by
  cases reads with
  | ended atEnd =>
    subst atEnd
    simp
  | opened => exact Nat.succ_le_succ (Nat.sub_le _ _)

theorem ChildAt.size_le (stands : ChildAt calm spot child) :
    spot.size ≤ child.cursor.elim 1 fun cursor => cursor.source.rows.length + 1 := by
  have size : spot.size = spot.source.rows.length - spot.position := by rw [size, rest, List.length_drop]
  cases stands with
  | inl fresh =>
    have bound := fresh.reads.size_le
    omega
  | inr settled =>
    cases settled with
    | held _ _ _ reads | limited _ _ _ _ reads =>
      have bound := reads.size_le
      dsimp only
      omega
    | exhausted atEnd => omega

private theorem totalSize_lt_fuel (stand : List.Forall₂ (ChildAt calm) spots children) : totalSize spots < intersectionFuel children := by
  refine Nat.lt_succ_of_le ?_
  induction stand with
  | nil => exact le_rfl
  | cons here _ ih => exact Nat.add_le_add here.size_le ih

/-! ## Pages -/

section Pages

variable {V : Type} {collect : List T → Option V}

structure IntersectionStands (sources : List (Source T)) (reverse : Bool) (page : MergePage) (spots : List (Spot T))
    (cursor : IntersectionCursor T V) : Prop where
  round : RoundAt sources page.Calm spots cursor.children
  going : cursor.lastNoNext = none
  direction : cursor.reverse = reverse

def Collected (collect : List T → Option V) (key : T → K) (reverse : Bool) (spots : List (Spot T)) (rows : List V) : Prop :=
  ∃ tuples, IsIntersection key reverse (spots.map rest) tuples ∧ tuples.map collect = rows.map some

private theorem intersection_opened {page : MergePage} (legal : page.Legal sources)
    (ofSources : spots.map source = sources) (stands : IntersectionAt spots continuation)
    (notEnd : continuation.isEnd = false) :
    ∃ cursor : IntersectionCursor T V, intersection reverse (page.fns sources) continuation.toBytes = .ok cursor ∧
      IntersectionStands sources reverse page spots cursor := by
  obtain ⟨continuations, decoded, marks⟩ := stands.decodes notEnd
  subst ofSources
  refine ⟨{ children := List.zipWith newIntersectionChild (page.fns (spots.map source)) (continuations.map writtenResume), reverse }, ?_,
    ⟨rfl, ?_⟩, rfl, rfl⟩
  · rw [intersection, fns_length legal, decoded]
    rfl
  · rw [List.zipWith_map_right]
    exact open_children newIntersectionChild_fresh legal (fun isCalm => isCalm) marks

variable (collects : ∀ values, values ≠ [] → (collect values).isSome = true)

include nonempty inOrder collects

private theorem intersection_next {page : MergePage} {cursor : IntersectionCursor T V}
    (stands : IntersectionStands sources reverse page spots cursor) :
    ∃ result cursor' spots', cursor.onNextWith collect key = .ok (result, cursor') ∧
      (spots'.map source = sources ∧ IntersectionAt spots' result.getContinuation) ∧
      Outcome (IntersectionStands sources reverse page) page.Calm (Collected collect key reverse) totalSize
        spots spots' cursor' result := by
  obtain ⟨round, going, direction⟩ := stands
  obtain ⟨result, children, spots', ran, stands', some, outcome⟩ :=
    intersectionLoop_run nonempty inOrder round (totalSize_lt_fuel round.stand)
  cases result with
  | noNext reason continuation =>
    obtain ⟨ends, smaller, meaning⟩ := outcome
    refine ⟨.noNext reason continuation, { cursor with children, lastNoNext := .some (.noNext reason continuation) }, spots', ?_,
      stands', ends, smaller, fun rows collected => ?_⟩
    · rw [onNextWith, going, direction, ran]
      rfl
    · obtain ⟨tuples, meets, collected⟩ := collected
      exact ⟨tuples, meaning tuples meets, collected⟩
  | next values continuation =>
    obtain ⟨round', smaller, meaning⟩ := outcome
    obtain ⟨value, isValue⟩ := Option.isSome_iff_exists.mp (collects values (some values rfl))
    refine ⟨.next value continuation, { cursor with children }, spots', ?_, stands', ⟨round', going, direction⟩, smaller,
      fun rows collected => ?_⟩
    · rw [onNextWith, going, direction, ran]
      simp only [bind, Except.bind, isValue]
    · obtain ⟨tuples, meets, collected⟩ := collected
      exact ⟨values :: tuples, meaning tuples meets, by rw [List.map_cons, List.map_cons, isValue, collected]⟩

private theorem intersection_pageable :
    Pageable (onNextWith collect key) (fun page => intersection reverse (page.fns sources))
      (MergePage.Legal sources) MergePage.Calm (IntersectionStands sources reverse)
      (fun spots continuation => spots.map source = sources ∧ IntersectionAt spots continuation)
      (Collected collect key reverse) totalSize where
  opened := by
    intro page spots continuation legal stands notEnd
    exact intersection_opened legal stands.1 stands.2 notEnd
  ended := by
    intro spots stands
    obtain ⟨_, spot, isSpot, empty⟩ := stands
    exact ⟨[], isIntersection_nil (empty ▸ List.mem_map_of_mem isSpot), rfl⟩
  next := by
    intro page spots cursor stands
    exact intersection_next nonempty inOrder collects stands

def intersectionPagesWith (collect : List T → Option V) (key : T → K) (reverse : Bool) (sources : List (Source T))
    (pages : List MergePage) : Except CursorError (List V × RecordCursorContinuation) :=
  readPages (onNextWith collect key) (fun page => intersection reverse (page.fns sources))
    MergePage.limit pages .start

theorem intersectionPagesWith_run {pages : List MergePage} (legal : ∀ page ∈ pages, page.Legal sources) :
    ∃ rows last, intersectionPagesWith collect key reverse sources pages = .ok (rows, last) ∧
      (last = .end_ → ∃ tuples, IsIntersection key reverse (sources.map Source.rows) tuples ∧ tuples.map collect = rows.map .some) ∧
      ((∃ page ∈ pages, page.Calm ∧ (sources.map fun source => source.rows.length).sum < page.limit) → last = .end_) := by
  have start : IntersectionAt (startSpots sources) .start := marks_startSpots sources
  obtain ⟨rows, last, read, complete, reaches⟩ :=
    (intersection_pageable nonempty inOrder collects).readPages_run MergePage.limit legal ⟨source_startSpots sources, start⟩
  rw [Collected, rest_startSpots] at complete
  rw [totalSize_startSpots] at reaches
  exact ⟨rows, last, read, complete, reaches⟩

end Pages

def intersectionPages (key : T → K) (reverse : Bool) (sources : List (Source T)) (pages : List MergePage) :
    Except CursorError (List T × RecordCursorContinuation) :=
  readPages (onNext key) (fun page => intersection reverse (page.fns sources)) MergePage.limit pages .start

def intersectionMultiPages (key : T → K) (reverse : Bool) (sources : List (Source T)) (pages : List MergePage) :
    Except CursorError (List (List T) × RecordCursorContinuation) :=
  readPages (onNextMulti key) (fun page => intersection reverse (page.fns sources)) MergePage.limit pages
    .start

/-- Every list of pages is read without an error. Once they reach the end, their rows are the
intersection of the sources, as the first source's rows or as those of all, and a page without
early stops that is long enough reaches it. What a continuation is built from is decoded
again, with empty bytes as the start. -/
theorem intersection_pages_exact (key : T → K) (reverse : Bool) (sources : List (Source T)) (two : 2 ≤ sources.length)
    (inOrder : ∀ source ∈ sources, InOrder key reverse source.rows) (pages : List MergePage)
    (legal : ∀ page ∈ pages, page.Legal sources) :
    (∃ rows last, intersectionPages key reverse sources pages = .ok (rows, last) ∧
      (last = .end_ → IsCommon key reverse (sources.map Source.rows) rows) ∧
      ((∃ page ∈ pages, page.Calm ∧ (sources.map fun source => source.rows.length).sum < page.limit) → last = .end_)) ∧
    (∃ rows last, intersectionMultiPages key reverse sources pages = .ok (rows, last) ∧
      (last = .end_ → IsIntersection key reverse (sources.map Source.rows) rows) ∧
      ((∃ page ∈ pages, page.Calm ∧ (sources.map fun source => source.rows.length).sum < page.limit) → last = .end_)) ∧
    ∀ children : List (MergeChildState T), children ≠ [] →
      ∃ resume, decodeIntersectionContinuation (buildIntersectionContinuation children).toBytes children.length = .ok resume ∧
        resume.map initialIntersectionContinuation = children.map fun child => child.continuation.written := by
  have some : sources ≠ [] := List.ne_nil_of_length_pos (by omega)
  refine ⟨?_, ?_, fun children nonempty => ?_⟩
  · obtain ⟨rows, last, read, complete, reaches⟩ := intersectionPagesWith_run some inOrder
      (fun values nonempty => List.isSome_head?.mpr nonempty) legal
    refine ⟨rows, last, read, fun ended => ?_, reaches⟩
    obtain ⟨tuples, meets, heads⟩ := complete ended
    exact meets.isCommon heads
  · obtain ⟨rows, last, read, complete, reaches⟩ := @intersectionPagesWith_run T K _ key reverse sources some
      inOrder (List T) Option.some (fun values _ => rfl) pages legal
    refine ⟨rows, last, read, fun ended => ?_, reaches⟩
    obtain ⟨tuples, meets, same⟩ := complete ended
    exact List.map_injective_iff.mpr (Option.some_injective _) same ▸ meets
  · refine ⟨(children.map MergeChildState.continuation).map writtenResume, ?_, ?_⟩
    · have some : children.map MergeChildState.continuation ≠ [] := fun empty => nonempty (List.map_eq_nil_iff.mp empty)
      have decoded := decode_intersectionMessage some
      rw [List.length_map] at decoded
      exact decoded
    · rw [List.map_map, List.map_map]
      exact List.map_congr_left fun child _ => initial_writtenResume child.continuation

theorem intersection_pages_exact_paused :
    ∃ rows, intersectionMultiPages (id : Nat → Nat) false [countedSource [1, 3], countedSource [2, 3]]
        [⟨9, [paused, steady]⟩, ⟨9, [steady, steady]⟩] = .ok (rows, .end_) ∧
      IsIntersection (id : Nat → Nat) false [[1, 3], [2, 3]] rows := by
  obtain ⟨rows, last, read, complete, reaches⟩ :=
    (intersection_pages_exact (id : Nat → Nat) false [countedSource [1, 3], countedSource [2, 3]] (by decide)
      (by simp [countedSource, InOrder, Precedes]) [⟨9, [paused, steady]⟩, ⟨9, [steady, steady]⟩]
      (paused_legal 9 _ _)).2.1
  have ended : last = .end_ := reaches ⟨⟨9, [steady, steady]⟩, by simp, steady_calm 9, by decide⟩
  exact ⟨rows, ended ▸ read, complete ended⟩

end FdbGo.RecordLayer
