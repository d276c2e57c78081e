/-
  DocWire.Proofs.Xml.Namespaces — what an id or a namespace gives back.

  A message type is found again from its namespace by way of its id, a function directly. All names in them are in their
  markup form, so what comes back of a name is decided by the one law for names (`Name.unescape_escape_iff`): of a name
  with `_-` another one comes back, and every other name itself. Behind the base an id stands as it is, whatever the base
  ends in. A key and a function also need their names: the empty function has no namespace of its own, nor is there a
  key without a repository or a basic type.
-/

import DocWire.Proofs.Xml.Names

namespace DocWire.Options

theorem functionName?_functionNamespace_iff {o : Options} {function : String} :
    o.functionName? (o.functionNamespace function) = some function ↔ function ≠ "" ∧ Name.Markless function := by
  by_cases hne : function = ""
  · have hempty : (Name.escape function).isEmpty = true := by
      rw [hne]
      decide
    refine iff_of_false ?_ (fun h => h.1 hne)
    rw [functionName?, functionNamespace, below?_below, Option.bind_some, hempty, Bool.true_or, if_pos rfl]
    simp
  · rw [functionName?_functionNamespace o hne, Option.some.injEq, Name.unescape_escape_iff]
    simp [hne]

/-- What an id or a namespace gives back, for all keys, functions and options: a text that is read as a key is the id of
that key; an id is read as its key, and the namespace of a function gives its name, exactly where every name in it is
read back and those that must not be empty are not; and the namespace of a message type always gives its id. -/
theorem namespaces_recovered :
    (∀ s key, TypeKey.ofId? s = some key → key.id = s) ∧
    (∀ key : TypeKey, TypeKey.ofId? key.id = some key ↔
      key.repository ≠ "" ∧ key.basicType ≠ "" ∧ ∀ p ∈ key.parts, ¬ ['_', '-'] <:+: p.toList) ∧
    (∀ (o : Options) (key : TypeKey), o.messageId? (o.messageNamespace key) = some key.id) ∧
    (∀ (o : Options) (function : String), o.functionName? (o.functionNamespace function) = some function ↔
      function ≠ "" ∧ ¬ ['_', '-'] <:+: function.toList) ∧
    (∀ name, Name.unescape (Name.escape name) = name ↔ ¬ ['_', '-'] <:+: name.toList) ∧
    (∀ text : String, '/' ∉ text.toList → Name.escape (Name.unescape text) = text) := by
  refine ⟨?_, ?_, ?_, ?_, ?_, ?_⟩
  · intro s key h
    exact TypeKey.id_of_ofId? h
  · intro key
    exact TypeKey.ofId?_id_iff
  · intro o key
    exact messageId?_messageNamespace o key
  · intro o function
    exact functionName?_functionNamespace_iff
  · intro name
    exact Name.unescape_escape_iff
  · intro text h
    exact Name.escape_unescape h

/-- An underscore before a slash and a hyphen behind it make no `_-`: the type is read back from an id in which `_-`
begins with the second underscore. -/
theorem namespaces_recovered_run :
    TypeKey.ofId? "REPO/__--ORDERS//7_-0/" = some ⟨"REPO", "_/-ORDERS", "", "7/0", ""⟩ ∧
    TypeKey.id ⟨"REPO", "_/-ORDERS", "", "7/0", ""⟩ = "REPO/__--ORDERS//7_-0/" ∧
    Name.escape (Name.unescape "__--ORDERS") = "__--ORDERS" := by
  have hread : TypeKey.ofId? "REPO/__--ORDERS//7_-0/" = some ⟨"REPO", "_/-ORDERS", "", "7/0", ""⟩ := by decide +kernel
  obtain ⟨hid, -, -, -, -, htext⟩ := namespaces_recovered
  exact ⟨hread, hid _ _ hread, htext "__--ORDERS" (by decide)⟩

end DocWire.Options
