import Slater.Delta.Level

/-!
# Reading a node through the delta

The two overlays that decide what a query sees of a node: `overlay_node_props`
(`slater/src/exec/access.rs`) lays the delta over the node's core properties, and the label half of
`node_label_ids_par` (`slater/src/exec.rs`) lays it over the core labels. Labels are held by name;
the source maps them through the core symbol table, which every label it accepts is in.

The properties of a deleted node are not asked for here: a reader drops the node first.
-/

namespace Slater

open Map

namespace DeltaSnapshot

variable (s : DeltaSnapshot)

/-- `overlay_node_props`. `born` says that the id lies past the base generation, where no core
row holds the business key; the key is then seeded from the delta's identity, as it is after a
replace-all. -/
def overlayNodeProps (born : Bool) (dense : Nat) (named : Map String Value) : Map String Value :=
  bif s.isEmpty then named
  else
    let nd := s.nodePatch dense
    let replaced := nd.any (·.replaced)
    let named := bif replaced then ∅ else named
    let named :=
      bif born || replaced then
        (s.nodeIdentity dense).elim named fun id => named.insert id.key id.value
      else named
    nd.elim named fun d => d.patches ∪ restrict (fun k => k ∉ d.removed) named

/-- The label overlay of `node_label_ids_par`: drops first, then additions. -/
def overlayLabels (dense : Nat) (labels : Finset String) : Finset String :=
  bif s.isEmpty then labels
  else (s.nodePatch dense).elim labels fun d => (labels \ d.labelsRemoved) ∪ d.labelsAdded

end DeltaSnapshot

end Slater
