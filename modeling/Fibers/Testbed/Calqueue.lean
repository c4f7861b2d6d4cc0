import Mathlib.Data.Rat.Floor
import Mathlib.Algebra.BigOperators.Group.List.Basic

/-!
# The calendar queue of the testbed

`calqueue.c` with priorities and widths as exact numbers. The array `calq` has one list of
nodes for each bucket, and the calendar is the region of `nbuckets` lists that begins at
`firstsub`; a resize builds the new calendar in another region of the same array while it
walks the old one.

A put and a get may resize, and a resize puts and gets. `ops d` are the two operations with
`d` levels of such calls; `put` and `get` have the two levels that the code ever uses. A
conversion of a number that does not fit its type, an access outside the calendar, a null
pointer and a width that is not positive are faults.

## Main definitions

- `Calqueue.put`, `Calqueue.get` — the operations of the queue
-/

namespace Fibers.Testbed

/-- Where the code leaves what C defines. -/
inductive Fault
  /-- a quotient that is no number or does not fit its type -/
  | quotient
  /-- a bucket outside the calendar -/
  | bounds
  /-- a width of the buckets that is not positive, or no number -/
  | width
  | null
  /-- more nested calls than the model follows -/
  | depth
  deriving DecidableEq

/-- `CALQSPACE`. -/
def calqSpace : ℕ := 65536

/-- `MAXNBUCKETS`. -/
def maxNBuckets : ℕ := 32768

structure CalqueueNode (α : Type) where
  priority : ℚ
  payload : α
  deriving DecidableEq

structure Calqueue (α : Type) where
  calq : ℕ → List (CalqueueNode α)
  firstsub : ℕ
  nbuckets : ℕ
  qsize : ℕ
  lastbucket : ℕ
  resizeEnabled : Bool
  topThreshold : ℕ
  botThreshold : ℤ
  lastprio : ℚ
  buckettop : ℚ
  cwidth : ℚ

/-- The conversion of a quotient to a signed type with the numbers from `-limit` to `limit - 1`. -/
def quotientOf (limit : ℤ) (x y : ℚ) : Except Fault ℤ :=
  if y = 0 then .error .quotient
  else
    let z := if 0 ≤ x / y then ⌊x / y⌋ else ⌈x / y⌉
    if -limit ≤ z ∧ z < limit then .ok z else .error .quotient

def intOf : ℚ → ℚ → Except Fault ℤ := quotientOf (2 ^ 31)

def longOf : ℚ → ℚ → Except Fault ℤ := quotientOf (2 ^ 63)

/-- `z % n` as a bucket. -/
def bucketOf (z : ℤ) (n : ℕ) : Except Fault ℕ :=
  if 0 ≤ z.tmod n then .ok (z.tmod n).toNat else .error .bounds

namespace Calqueue

variable {α : Type}

/-- `calendar[i]`. -/
def bucket (q : Calqueue α) (i : ℕ) : List (CalqueueNode α) := q.calq (q.firstsub + i)

def setBucket (q : Calqueue α) (i : ℕ) (l : List (CalqueueNode α)) : Calqueue α :=
  { q with calq := Function.update q.calq (q.firstsub + i) l }

def localinit (q : Calqueue α) (qbase nbucks : ℕ) (bwidth startprio : ℚ) :
    Except Fault (Calqueue α) := do
  let n ← longOf startprio bwidth
  let lastbucket ← bucketOf n nbucks
  return { q with
    firstsub := qbase
    cwidth := bwidth
    nbuckets := nbucks
    qsize := 0
    calq := fun k => if qbase ≤ k ∧ k < qbase + nbucks then [] else q.calq k
    lastprio := startprio
    lastbucket := lastbucket
    buckettop := (n + 1) * bwidth + 1 / 2 * bwidth
    botThreshold := (nbucks / 2 : ℕ) - 2
    topThreshold := 2 * nbucks }

/-! ## Putting a node into its bucket -/

/-- The walk from the first node of a list to the place of a new one. -/
def insertNode (x : CalqueueNode α) : List (CalqueueNode α) → List (CalqueueNode α)
  | [] => [x]
  | y :: l => if x.priority < y.priority then x :: y :: l else y :: insertNode x l

/-- `calqueue_put` up to the check of the size. -/
def link (q : Calqueue α) (x : CalqueueNode α) : Except Fault (Calqueue α) := do
  let z ← intOf x.priority q.cwidth
  let i ← bucketOf z q.nbuckets
  return { q.setBucket i (insertNode x (q.bucket i)) with qsize := q.qsize + 1 }

/-! ## Taking a node out -/

/-- `calendar[i] != NULL && calendar[i]->priority < top`. -/
def headBelow (q : Calqueue α) (i : ℕ) (top : ℚ) : Bool :=
  match q.bucket i with
  | [] => false
  | x :: _ => x.priority < top

/-- The scan of `k` buckets from bucket `i` on: the bucket that passes the check, if any, and
`buckettop` after it. -/
def scan (q : Calqueue α) : ℕ → ℕ → ℚ → Option ℕ × ℚ
  | 0, _, top => (none, top)
  | k + 1, i, top =>
    if q.headBelow i top then (some i, top)
    else scan q k (if i + 1 = q.nbuckets then 0 else i + 1) (top + q.cwidth)

/-- The direct search of the first `n` buckets: the one with the lowest head, and its priority. -/
def directSearch (q : Calqueue α) : ℕ → Option (ℕ × ℚ)
  | 0 => none
  | n + 1 =>
    match q.bucket n with
    | [] => directSearch q n
    | x :: _ =>
      match directSearch q n with
      | none => some (n, x.priority)
      | some (i, low) => if x.priority < low then some (n, x.priority) else some (i, low)

/-- `calqueue_deq` of a queue that is not empty, up to the check of the size. The direct search
does not write `buckettop`. -/
def unlink (q : Calqueue α) : Except Fault (CalqueueNode α × Calqueue α) :=
  let (found, top) := q.scan q.nbuckets q.lastbucket q.buckettop
  match found.or ((q.directSearch q.nbuckets).map Prod.fst) with
  | none => .error .bounds
  | some i =>
    match q.bucket i with
    | [] => .error .null
    | e :: l =>
      .ok (e, { q.setBucket i l with
        lastbucket := i
        lastprio := e.priority
        buckettop := top
        qsize := q.qsize - 1 })

/-! ## Resizing -/

/-- The operations that a resize calls. -/
structure Ops (α : Type) where
  put : Calqueue α → CalqueueNode α → Except Fault (Calqueue α)
  deq : Calqueue α → Except Fault (Option (CalqueueNode α) × Calqueue α)

section Resize

variable (o : Ops α)

/-- `n` nodes, dequeued one after the other. -/
def sample : ℕ → Calqueue α → Except Fault (List (CalqueueNode α) × Calqueue α)
  | 0, q => .ok ([], q)
  | n + 1, q => do
    let (e, q) ← o.deq q
    match e with
    | none => .error .null
    | some e =>
      let (es, q) ← sample n q
      return (e :: es, q)

/-- The nodes of a list, put one after the other. -/
def putAll : List (CalqueueNode α) → Calqueue α → Except Fault (Calqueue α)
  | [], q => .ok q
  | x :: l, q => do
    let q ← o.put q x
    putAll l q

/-- How many nodes `new_width` samples. -/
def nsamples (qsize : ℕ) : ℕ := min 25 (if qsize ≤ 5 then qsize else 5 + qsize / 10)

/-- The separations of consecutive samples. -/
def separations (es : List (CalqueueNode α)) : List ℚ :=
  List.zipWith (fun x y => y.priority - x.priority) es es.tail

/-- The width for a sample: three times the average separation, large ones ignored. -/
def widthOf (es : List (CalqueueNode α)) : Except Fault ℚ :=
  let average := (separations es).sum / (es.length - 1)
  let kept := (separations es).filter (· < average * 2)
  let width := kept.sum / kept.length * 3
  if 0 < width then .ok width else .error .width

/-- `new_width`, with the queue that it leaves. -/
def newWidth (q : Calqueue α) : Except Fault (ℚ × Calqueue α) := do
  if q.qsize < 2 then return (1, q)
  let (es, q') ← sample o (nsamples q.qsize) { q with resizeEnabled := false }
  let width ← widthOf es
  let q' ← putAll o es q'
  return (width, { q' with
    lastbucket := q.lastbucket
    lastprio := q.lastprio
    buckettop := q.buckettop
    resizeEnabled := true })

/-- The nodes of the buckets below `n` of the calendar at `base`, put from the last bucket on. -/
def copyCalendar (base : ℕ) : ℕ → Calqueue α → Except Fault (Calqueue α)
  | 0, q => .ok q
  | n + 1, q => do
    -- the bucket is read from the array that the puts write
    let q ← putAll o (q.calq (base + n)) q
    copyCalendar base n q

def resize (q : Calqueue α) (newsize : ℕ) : Except Fault (Calqueue α) := do
  if q.resizeEnabled = false then return q
  let (bwidth, q) ← newWidth o q
  let q' ← q.localinit (if q.firstsub = 0 then calqSpace - newsize else 0) newsize bwidth q.lastprio
  copyCalendar o q.firstsub q.nbuckets q'

/-- `calqueue_put`, with the operations `o` for its resize. -/
def putWith (q : Calqueue α) (x : CalqueueNode α) : Except Fault (Calqueue α) := do
  let q ← q.link x
  if q.topThreshold < q.qsize ∧ q.nbuckets < maxNBuckets then resize o q (2 * q.nbuckets)
  else return q

/-- `calqueue_deq`, with the operations `o` for its resize. -/
def deqWith (q : Calqueue α) : Except Fault (Option (CalqueueNode α) × Calqueue α) := do
  if q.qsize = 0 then return (none, q)
  let (e, q) ← q.unlink
  if (q.qsize : ℤ) < q.botThreshold then
    let q ← resize o q (q.nbuckets / 2)
    return (some e, q)
  else return (some e, q)

end Resize

/-- The operations with `d` levels of nested calls. -/
def ops (α : Type) : ℕ → Ops α
  | 0 => ⟨fun _ _ => .error .depth, fun _ => .error .depth⟩
  | d + 1 => ⟨putWith (ops α d), deqWith (ops α d)⟩

/-! ## The queue -/

/-- `calqueue_init`, on memory with any contents. -/
def init (q : Calqueue α) : Except Fault (Calqueue α) := do
  let q ← q.localinit 0 2 1 0
  return { q with resizeEnabled := true }

/-- `calqueue_put`. -/
def put (q : Calqueue α) (x : CalqueueNode α) : Except Fault (Calqueue α) := (ops α 2).put q x

/-- `calqueue_deq`. -/
def deq (q : Calqueue α) : Except Fault (Option (CalqueueNode α) × Calqueue α) := (ops α 2).deq q

/-- `calqueue_get`. A payload is never null, and `none` is the null pointer. -/
def get (q : Calqueue α) : Except Fault (Option α × Calqueue α) := do
  let (e, q) ← q.deq
  return (e.map (·.payload), q)

/-- `calqueue_empty`. -/
def isEmpty (q : Calqueue α) : Bool := q.qsize = 0

end Calqueue

end Fibers.Testbed
