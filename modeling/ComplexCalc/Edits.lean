import ComplexCalc.Node
/-!
# Edits of nodes

A host program edits a node by assignments, each to an index or to a span of indices. A node that
has items refuses every span, since the span might hold its tag. An edit that is refused leaves the
node as it is.
-/
namespace ComplexCalc

/-- Every `step`-th index from `start` on and before `stop`, as far as these are given. A negative
bound counts from the end. -/
structure Span where
  start : Option Int
  stop : Option Int
  step : Option Int
deriving Repr

namespace Span

/-- The step, and among `n` items the index where the span begins and the one where it ends. A bound
that lies outside is moved to the nearer side. -/
def resolve (r : Span) (n : Nat) : Int × Int × Int :=
  let step := r.step.getD 1
  let (low, high) : Int × Int := if 0 < step then (0, n) else (-1, n - 1)
  let within (k : Int) : Int := max low (min (if k < 0 then k + n else k) high)
  let (first, last) := if 0 < step then (low, high) else (high, low)
  (step, (r.start.map within).getD first, (r.stop.map within).getD last)

/-- The items with those of the span replaced by the ones that `x` offers. Consecutive items may be
replaced by more or fewer ones; with any other step their count has to be that of the indices, and
a step of zero suits no count. -/
def replace (r : Span) (items : List Item) (x : Item) : Except Failure (List Item) := do
  let (step, start, stop) := r.resolve items.length
  if step = 0 then fault .fieldCount
  else
    let values ← x.offered
    if step = 1 then
      .ok (items.take start.toNat ++ values ++ items.drop (max start stop).toNat)
    else
      let count := (if 0 < step then (stop - start + step - 1) / step
        else (start - stop - step - 1) / -step).toNat
      if values.length = count then
        .ok (values.zipIdx.foldl (fun items (v, k) => items.set (start + k * step).toNat v) items)
      else fault .fieldCount

end Span

/-- Where an edit goes. -/
inductive Place where
  | index (k : Int)
  | span (r : Span)
deriving Repr

/-- An assignment to a place of an item. -/
structure Edit where
  place : Place
  item : Item
deriving Repr

namespace Item

/-- The item with what is at a place replaced. -/
def put (target : Item) : Place → Item → Except Failure Item
  | .index k, x => target.assign k x
  | .span r, x =>
    match target with
    | node [] => (r.replace [] x).map node
    | node _ => fault .fixedTag
    | list items => (r.replace items x).map list
    | leaf _ => fault .noProperty

/-- Whether the edit is accepted, and the item after it. -/
def edit (target : Item) (e : Edit) : Except Failure Unit × Item :=
  match target.put e.place e.item with
  | .ok t => (.ok (), t)
  | .error φ => (.error φ, target)

/-- The item after some edits, each accepted or refused. -/
def edits (target : Item) (es : List Edit) : Item := es.foldl (fun t e => (t.edit e).2) target

end Item
end ComplexCalc
