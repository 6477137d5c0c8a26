import Mathlib.Algebra.Group.Nat.Defs

/-! The read version cache: the packed fence word, the entry that a reply is merged into,
and what a read of the cache answers. -/

set_option autoImplicit false

namespace FdbGo.Client

/-! ## Fences -/

def fenceHalf : Nat := 2 ^ 32

/-- The fence word: the epoch in the high half, the generation in the low half. Each
wraps within its own half. -/
def packFences (epoch gen : Nat) : Nat := epoch % fenceHalf * fenceHalf + gen % fenceHalf

def fenceEpoch (f : Nat) : Nat := f / fenceHalf

def fenceGen (f : Nat) : Nat := f % fenceHalf

/-- The word that `bumpFences` installs over `cur`. -/
def bumpedFences (newCluster : Bool) (cur : Nat) : Nat :=
  packFences (if newCluster then fenceEpoch cur + 1 else fenceEpoch cur) (fenceGen cur + 1)

/-- A token rebound to the epoch of the proxies that the attempt used. -/
def withEpoch (tok epoch : Nat) : Nat := packFences epoch (fenceGen tok)

/-! ## Entries -/

/-- A `time.Time`: the instant, and the rest of the representation, which equality of
times compares and their order does not. -/
structure GoTime where
  ns : Int := 0
  location : Nat := 0
  deriving DecidableEq, Repr

namespace GoTime

def before (t u : GoTime) : Bool := t.ns < u.ns

def after (t u : GoTime) : Bool := t.ns > u.ns

def isZero (t : GoTime) : Bool := t.ns == 0

def sub (t u : GoTime) : Int := t.ns - u.ns

end GoTime

/-- `grvCacheEntry`: immutable once published. -/
structure GrvCacheEntry where
  epoch : Nat := 0
  version : Int := 0
  anchor : GoTime := {}
  freshness : GoTime := {}
  floor : Int := 0
  rkDefault : GoTime := {}
  rkBatch : GoTime := {}
  deriving DecidableEq, Repr

/-- What a reply publishes: a version obtained by a request sent at `sentAt`, durable if
it was committed, and the ratekeeper signals stamped by `replyTime`. -/
structure Reply where
  durable : Bool := false
  sentAt : GoTime := {}
  v : Int
  replyTime : GoTime := {}
  rkDefault : Bool := false
  rkBatch : Bool := false
  deriving DecidableEq, Repr

/-! ## Merging a reply -/

/-- The entry a reply of the current epoch may build on: not one of another epoch. -/
def mergeBase (cur : Option GrvCacheEntry) (sameEpoch : Bool) (obsEpoch : Nat) : Option GrvCacheEntry :=
  match cur with
  | some e => if sameEpoch && e.epoch != obsEpoch then none else some e
  | none => none

/-- The floor carried forward, raised by a durable version of the current epoch. -/
def mergeFloor (base : Option GrvCacheEntry) (sameEpoch : Bool) (r : Reply) : Int :=
  let floor := (base.map GrvCacheEntry.floor).getD 0
  if r.durable && sameEpoch && floor < r.v then r.v else floor

/-- The reply's version over the base, which stays whole if its version is higher. -/
def mergeVersion (base : Option GrvCacheEntry) (r : Reply) : GrvCacheEntry :=
  let next : GrvCacheEntry := { version := r.v, anchor := r.sentAt, freshness := r.sentAt }
  match base with
  | none => next
  | some e =>
    let next := { next with rkDefault := e.rkDefault, rkBatch := e.rkBatch }
    if r.v < e.version then e
    else
      let next := if r.v = e.version ∧ e.anchor.before next.anchor then { next with anchor := e.anchor } else next
      if e.freshness.after next.freshness then { next with freshness := e.freshness } else next

/-- The cooldowns of a reply of the current epoch, which only advance. -/
def mergeCooldowns (next : GrvCacheEntry) (sameEpoch : Bool) (r : Reply) : GrvCacheEntry :=
  let next :=
    if sameEpoch && r.rkDefault && r.replyTime.after next.rkDefault then
      { next with rkDefault := r.replyTime }
    else next
  if sameEpoch && r.rkBatch && r.replyTime.after next.rkBatch then { next with rkBatch := r.replyTime }
  else next

/-- The entry that a reply makes of the current one. `obs` is the fence word observed at
publication, `tok` the one captured when the request was sent. -/
def mergeReply (cur : Option GrvCacheEntry) (obs tok : Nat) (r : Reply) : GrvCacheEntry :=
  let obsEpoch := fenceEpoch obs
  let mayInstallVersion := obs == tok
  let sameEpoch := obsEpoch == fenceEpoch tok
  let base := mergeBase cur sameEpoch obsEpoch
  let floor := mergeFloor base sameEpoch r
  let next :=
    if !mayInstallVersion then base.getD {}
    else if r.v < floor then base.getD {}
    else mergeVersion base r
  let next := mergeCooldowns next sameEpoch r
  let next := { next with floor := floor }
  if sameEpoch then { next with epoch := obsEpoch } else next

/-- The entry that an invalidation leaves in the place of `cur`. -/
def sentinel (cur : GrvCacheEntry) : GrvCacheEntry :=
  { epoch := cur.epoch, rkDefault := cur.rkDefault, rkBatch := cur.rkBatch, floor := cur.floor }

/-! ## Reading -/

def maxVersionCacheLag : Int := 100000000

def grvCacheRKCooldown : Int := 60000000000

def grvPriorityBatch : Nat := 1 <<< 24

def grvPrioritySystemImmediate : Nat := 15 <<< 24

/-- What `tryCache` answers from an entry of the current epoch. -/
def serve (e : GrvCacheEntry) (priority : Nat) (nowT : GoTime) : Option (Int × GoTime) :=
  if e.version = 0 then none
  else if e.version < e.floor then none
  else if nowT.sub e.freshness > maxVersionCacheLag then none
  else
    let lastThrottle : GoTime :=
      if priority = grvPriorityBatch then e.rkBatch
      else if priority = grvPrioritySystemImmediate then {}
      else e.rkDefault
    if !lastThrottle.isZero ∧ nowT.sub lastThrottle < grvCacheRKCooldown then none
    else some (e.version, e.anchor)

end FdbGo.Client
