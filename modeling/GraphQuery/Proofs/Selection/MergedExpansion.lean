import Mathlib
import GraphQuery.Proofs.Schema.Rearrangement
import GraphQuery.Proofs.Selection.PlainExpansion
import GraphQuery.Proofs.Syntax.Places

/-! Merging selections is expanding them: the fields are those of the expansion without a
memory, grouped by key, with every node once. -/

namespace GraphQuery

namespace FieldMap

theorem nodes_ofFields_eq (fields : List Field) :
    ((ofFields fields).nodes : Multiset Field) = fields := by
  induction fields using List.reverseRecOn with
  | nil => rfl
  | append_singleton fields field induction =>
      rw [ofFields_append, nodes_add, induction, ← Multiset.coe_add]
      rfl

theorem selectionSets_subperm {fields : FieldMap} {document : Document}
    (few : fields.nodes.Subperm document.nodes) {merged : MergedField} (member : merged ∈ fields) :
    merged.selectionSets.Subperm document.ownSets := by
  have inside : merged.nodes.Sublist fields.nodes :=
    List.sublist_flatten_of_mem (List.mem_map_of_mem member)
  obtain ⟨between, same, fewer⟩ := inside.subperm.trans few
  have found : merged.selectionSets.Subperm (document.nodes.filterMap Field.selectionSet) :=
    ⟨_, same.filterMap _, fewer.filterMap _⟩
  exact found.trans (List.sublist_append_right _ _).subperm

end FieldMap

/-- Different selection sets of the operations and fields of a document, taken from it no more
often than they stand there, are merged into what they expand to without a memory: the
same fault, or the same fields, grouped by key in the order in which the keys first appear,
where every node stands once. The selection sets of each merged field are again such sets. -/
theorem Document.merge_is_expansion {ρ : Type} {document : Document} (apart : document.NodesApart)
    {expansion : Expansion ρ} (built : expansion.schema.IsBuilt)
    (known : expansion.fragments = document.fragments) {sets : List SelectionSet}
    (own : sets.Subperm document.ownSets) :
    (expansion.merge sets).map FieldMap.groups = (expansion.expand sets).map Field.grouped ∧
    ∀ fields, expansion.merge sets = .ok fields →
      (∀ merged ∈ fields, merged.nodes ≠ [] ∧ ∀ node ∈ merged.nodes, node.key = merged.key) ∧
      (fields.nodes.map Field.place).Nodup ∧
      (∃ expanded, expansion.expand sets = .ok expanded ∧
        ∀ node, node ∈ fields.nodes ↔ node ∈ expanded) ∧
      ∀ merged ∈ fields, merged.selectionSets.Subperm document.ownSets := by
  have keyed := FragmentTable.keyed_ofDefinitions document.fragmentDefinitions
  rcases expansion.merge_eq_expand built (known ▸ keyed) sets with
    ⟨fault, merged, expanded⟩ | ⟨kept, seen, merged, expanded, repeats⟩
  · refine ⟨by rw [merged, expanded]; rfl, fun fields done => ?_⟩
    rw [merged] at done
    cases done
  · have few := subperm_nodes_of_merge known own merged
    have all := Multiset.coe_eq_coe.mp (FieldMap.nodes_ofFields_eq kept)
    have placed := apart.nodup_places few
    have keptApart : (kept.map Field.place).Nodup := (all.map Field.place).nodup_iff.mp placed
    constructor
    · rw [merged, expanded, Except.map, Except.map, FieldMap.groups_ofFields keptApart,
        Field.grouped_eq_of_repeats repeats]
    · intro fields done
      cases merged.symm.trans done
      refine ⟨fun merged member => ⟨List.cons_ne_nil _ _, fun node inside => ?_⟩, placed,
        ⟨seen, expanded, fun node => all.mem_iff.trans repeats.mem_iff.symm⟩,
        fun merged member => FieldMap.selectionSets_subperm few member⟩
      rw [FieldMap.nodes_ofFields kept merged member, List.mem_filter] at inside
      exact beq_iff_eq.mp inside.2

namespace Cellar

def tasting : List Char :=
  ("\x7b wines \x7b ...Grown ...Paired \x7d \x7d " ++
    "fragment Grown on Wine \x7b vineyard ...Paired \x7d " ++
    "fragment Paired on Wine \x7b pairsWith \x7b ...Grown \x7d \x7d").toList

def expansion (document : Document) : Expansion Unit := ⟨schema, red, document.fragments, []⟩

def selections (document : Document) : List SelectionSet :=
  (document.nodes.filterMap Field.selectionSet).take 1

def shown (groups : List (String × List Field)) : List (String × List Nat) :=
  groups.map fun (key, nodes) => (key, nodes.map Field.place)

theorem schema_isBuilt : schema.IsBuilt :=
  ⟨_, SchemaBuilder.assembled_ofCalls calls, build_calls⟩

theorem pairs_are_tasted_once : ∃ document, Parser.parseDocument 3 tasting = .ok document ∧
    document.NodesApart ∧ (selections document).Subperm document.ownSets ∧
    ∃ expanded, (expansion document).expand (selections document) = .ok expanded ∧
      shown (Field.grouped expanded) = [("vineyard", [58]), ("pairsWith", [105])] := by
  have measured : (Parser.parseDocument 3 tasting).toOption.map (fun document =>
      ((expansion document).merge (selections document)).toOption.map fun fields =>
        shown fields.groups) = some (some [("vineyard", [58]), ("pairsWith", [105])]) := by
    cbv
  obtain ⟨document, found, tasted⟩ := Option.map_eq_some_iff.mp measured
  obtain ⟨fields, merged, same⟩ := Option.map_eq_some_iff.mp tasted
  have parsed := Except.eq_ok_of_toOption found
  have done := Except.eq_ok_of_toOption merged
  have apart := Document.nodesApart_of_parse parsed
  have own : (selections document).Subperm document.ownSets :=
    ((List.take_sublist 1 _).trans (List.sublist_append_right _ _)).subperm
  have expands :=
    @Document.merge_is_expansion Unit document apart (expansion document) schema_isBuilt rfl _ own
  obtain ⟨expanded, asked, _⟩ := (expands.2 fields done).2.2.1
  have groups := expands.1
  rw [done, asked, Except.map, Except.map, Except.ok.injEq] at groups
  exact ⟨document, parsed, apart, own, expanded, asked, groups ▸ same⟩

end Cellar

end GraphQuery
