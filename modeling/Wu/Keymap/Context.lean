import Mathlib.Data.List.Basic

/-!
# Key contexts

`keymap/context.rs` of the `gpui` crate: what is focused, from the outermost element to the innermost, and the predicates that
say in which contexts a binding is enabled.
-/

namespace Wu.Gpui

/-- `struct ContextEntry`. -/
structure ContextEntry where
  /-- The key, or the name when there is no value. -/
  key : String
  value : Option String
  deriving DecidableEq, Repr

/-- `struct KeyContext`. -/
structure KeyContext where
  entries : List ContextEntry
  deriving DecidableEq, Repr

namespace KeyContext

/-- `KeyContext::contains`. -/
def contains (self : KeyContext) (key : String) : Bool := self.entries.any fun entry => entry.key == key

/-- `KeyContext::get`. -/
def get (self : KeyContext) (key : String) : Option String :=
  (self.entries.find? fun entry => entry.key == key).bind ContextEntry.value

end KeyContext

/-- `enum KeyBindingContextPredicate`. -/
inductive KeyBindingContextPredicate where
  | identifier (name : String)
  | equal (left right : String)
  | notEqual (left right : String)
  | descendant (parent child : KeyBindingContextPredicate)
  | not (pred : KeyBindingContextPredicate)
  | and (left right : KeyBindingContextPredicate)
  | or (left right : KeyBindingContextPredicate)
  deriving DecidableEq, Repr

namespace KeyBindingContextPredicate

/-- `eval_inner`: whether the predicate holds of the last of `contexts`. -/
def evalInner : KeyBindingContextPredicate → List KeyContext → List KeyContext → Bool
  | identifier name, contexts, _ => contexts.getLast?.any fun context => context.contains name
  | equal left right, contexts, _ =>
    contexts.getLast?.any fun context => ((context.get left).map fun value => value == right).getD false
  | notEqual left right, contexts, _ =>
    contexts.getLast?.any fun context => ((context.get left).map fun value => value != right).getD true
  | not pred, contexts, allContexts =>
    !contexts.isEmpty && (List.range allContexts.length).all fun i => !evalInner pred (allContexts.take (i + 1)) allContexts
  | descendant parent child, contexts, allContexts =>
    -- the outermost match of the parent decides
    match (List.range (contexts.length - 1)).find? fun i => evalInner parent (contexts.take (i + 1)) allContexts with
    | some i => evalInner child (contexts.drop (i + 1)) (contexts.drop (i + 1))
    | none => false
  | and left right, contexts, allContexts => evalInner left contexts allContexts && evalInner right contexts allContexts
  | or left right, contexts, allContexts => evalInner left contexts allContexts || evalInner right contexts allContexts

/-- `depth_of`: the deepest depth at which the predicate matches. -/
def depthOf (self : KeyBindingContextPredicate) (contexts : List KeyContext) : Option Nat :=
  (List.range (contexts.length + 1)).reverse.find? fun depth => self.evalInner (contexts.take depth) contexts

end KeyBindingContextPredicate

end Wu.Gpui
