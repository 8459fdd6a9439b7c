import Mathlib.Data.List.Sort
import Wu.Keymap.Context

/-!
# The keymap

Which bindings the keystrokes typed so far complete, and whether more keystrokes could complete others. Complete bindings are
ranked by the depth of their context and then by the order they were added in; a null takes out those that it outranks, unless
their source is stronger, and an unbind those of one action. Whether input is pending is found from the order alone.

Everything is as compiled for Windows or for another platform, which differ in how a keystroke is matched.
-/

namespace Wu.Gpui

/-- `struct Modifiers`. -/
structure Modifiers where
  control : Bool
  alt : Bool
  shift : Bool
  platform : Bool
  function : Bool
  deriving DecidableEq, Repr

/-- `Modifiers::none`. -/
def Modifiers.none : Modifiers := ⟨false, false, false, false, false⟩

/-- `struct Keystroke`. -/
structure Keystroke where
  modifiers : Modifiers
  key : String
  /-- The character that could have been typed. -/
  keyChar : Option String
  deriving DecidableEq, Repr

/-- `struct KeybindingKeystroke`; what is displayed is kept apart on Windows only. -/
structure KeybindingKeystroke where
  inner : Keystroke
  display : Option (Modifiers × String)
  deriving DecidableEq, Repr

/-- `Keystroke::should_match`. -/
def Keystroke.shouldMatch (windows : Bool) (self : Keystroke) (target : KeybindingKeystroke) : Bool :=
  let typedChar := self.keyChar.filter fun keyChar => keyChar != self.key
  let imeModifiers :=
    if windows then Modifiers.none
    else { Modifiers.none with control := self.modifiers.control, platform := self.modifiers.platform }
  (typedChar.any fun keyChar => target.inner.key == keyChar && target.inner.modifiers == imeModifiers) ||
    target.inner.modifiers == self.modifiers && target.inner.key == self.key

/-- What a binding does: nothing, unbind an action, or dispatch one. -/
inductive Action where
  | noAction
  | unbind (name : String)
  | other (name : String)
  deriving DecidableEq, Repr

namespace Action

/-- `is_no_action`. -/
def isNoAction : Action → Bool
  | noAction => true
  | _ => false

/-- `is_unbind`. -/
def isUnbind : Action → Bool
  | unbind _ => true
  | _ => false

/-- `Action::name`. -/
def name : Action → String
  | noAction => "wu::NoAction"
  | unbind _ => "wu::Unbind"
  | other name => name

end Action

/-- `struct KeyBinding`. -/
structure KeyBinding where
  action : Action
  keystrokes : List KeybindingKeystroke
  contextPredicate : Option KeyBindingContextPredicate
  /-- The source of the binding; a smaller one is stronger. -/
  metaIndex : Option Nat
  deriving DecidableEq, Repr

namespace KeyBinding

/-- `KeyBinding::match_keystrokes`: whether more keystrokes are needed, if the typed ones match. -/
def matchKeystrokes (windows : Bool) (self : KeyBinding) (typed : List Keystroke) : Option Bool :=
  if self.keystrokes.length < typed.length then none
  else if (self.keystrokes.zip typed).all fun (target, typed) => typed.shouldMatch windows target then
    some (self.keystrokes.length > typed.length)
  else none

end KeyBinding

/-- `binding_is_unbound`. -/
def bindingIsUnbound (disabledBinding binding : KeyBinding) : Bool :=
  disabledBinding.keystrokes == binding.keystrokes &&
    match disabledBinding.action with
    | .unbind name => name == binding.action.name
    | _ => false

/-- A binding that matches the input, with the depth it is enabled at and its index. -/
structure Matched where
  depth : Nat
  ix : Nat
  binding : KeyBinding
  deriving DecidableEq, Repr

namespace Matched

/-- The strength of the source of a binding; one without a source is a user's. -/
def metaIndex (self : Matched) : Nat := self.binding.metaIndex.getD 0

/-- A binding that disables others. -/
def disables (self : Matched) : Bool := self.binding.action.isNoAction || self.binding.action.isUnbind

/-- The order that complete bindings are sorted in: the deepest first, and the last added first of one depth. -/
def Before (a b : Matched) : Prop := b.depth < a.depth ∨ b.depth = a.depth ∧ b.ix ≤ a.ix

instance : DecidableRel Before := fun a b => inferInstanceAs (Decidable (_ ∨ _))

end Matched

/-- `struct Keymap`: the bindings in the order they were added in. -/
structure Keymap where
  bindings : List KeyBinding
  deriving DecidableEq, Repr

namespace Keymap

/-- `Keymap::binding_enabled`. -/
def bindingEnabled (binding : KeyBinding) (contexts : List KeyContext) : Option Nat :=
  match binding.contextPredicate with
  | some predicate => predicate.depthOf contexts
  | none => some contexts.length

/-- The bindings that match the input and that are complete or are not, the last added first. -/
def matching (windows : Bool) (self : Keymap) (input : List Keystroke) (contextStack : List KeyContext) (pending : Bool) :
    List Matched :=
  self.bindings.zipIdx.reverse.filterMap fun (binding, ix) => do
    let depth ← bindingEnabled binding contextStack
    let needsMore ← binding.matchKeystrokes windows input
    if needsMore = pending then some ⟨depth, ix, binding⟩ else none

/-- The loop over the complete bindings in their order: the ones that are left, with the strongest null so far and the unbinds
so far. -/
def select : Option Nat → List KeyBinding → List Matched → List Matched
  | _, _, [] => []
  | noActionMeta, unboundBindings, matched :: rest =>
    if matched.binding.action.isNoAction then
      select (some (noActionMeta.elim matched.metaIndex fun existing => min existing matched.metaIndex)) unboundBindings rest
    else if noActionMeta.any fun noActionMeta => matched.metaIndex ≥ noActionMeta then select noActionMeta unboundBindings rest
    else if matched.binding.action.isUnbind then select noActionMeta (unboundBindings ++ [matched.binding]) rest
    else if unboundBindings.any fun disabledBinding => bindingIsUnbound disabledBinding matched.binding then
      select noActionMeta unboundBindings rest
    else matched :: select noActionMeta unboundBindings rest

/-- The loop over the pending bindings, the first added first: the key sequences that more input may complete. -/
def pendingSequences (firstBindingIndex : Option Nat) :
    List Matched → List (List KeybindingKeystroke) → List (List KeybindingKeystroke)
  | [], pending => pending
  | matched :: rest, pending =>
    if firstBindingIndex.any fun bindingIx => bindingIx > matched.ix then pendingSequences firstBindingIndex rest pending
    else if matched.disables then
      pendingSequences firstBindingIndex rest (pending.filter fun keystrokes => keystrokes != matched.binding.keystrokes)
    else pendingSequences firstBindingIndex rest (pending.insert matched.binding.keystrokes)

/-- `Keymap::bindings_for_input`. -/
def bindingsForInput (windows : Bool) (self : Keymap) (input : List Keystroke) (contextStack : List KeyContext) :
    List KeyBinding × Bool :=
  let matchedBindings := (self.matching windows input contextStack false).insertionSort Matched.Before
  let pendingBindings := self.matching windows input contextStack true
  let selected := select none [] matchedBindings
  let firstBindingIndex := selected.head?.map Matched.ix
  let pending := pendingSequences firstBindingIndex pendingBindings.reverse []
  (selected.map Matched.binding, !pending.isEmpty)

end Keymap

end Wu.Gpui
