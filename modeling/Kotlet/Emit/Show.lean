import Kotlet.Emit.Expr

/-!
# Showing any object

An object of type `Any` may be an array, and a collection of them may hold arrays at any depth. So
a class that prints such a value has one method more. It shows arrays and lists in brackets, with
their elements shown in the same way, and leaves everything else to the object.

* `Emit.showMethod` : that method.
-/

namespace Kotlet

open ClassFile

namespace Emit

/-- The object that is shown. -/
def shownSlot : Local := ⟨0, .any⟩
/-- The text so far. -/
def textSlot : Local := ⟨1, .any⟩
/-- The index of the next element. -/
def indexSlot : Local := ⟨2, .int⟩
/-- The elements. -/
def elementsSlot : Local := ⟨3, .any⟩

/-- Goes to a label unless the object is of a class; otherwise leaves it as such. -/
def castOr (cls : String) (otherwise : Nat) : Emit Unit := do
  load shownSlot
  onClass .instanceOf cls
  jump .ifEq otherwise
  load shownSlot
  onClass .checkCast cls

/-- Shows an array of plain values, and goes on if the object is no such array. -/
def showPlainArray (element : Scalar) : Emit Unit := do
  let next ← newLabel
  castOr (Ty.array element).castName next
  callStatic Jvm.arrays "toString" (arrayTextDescriptor element)
  op .areturn
  bindLabel next

/-- Appends a text that is on the stack. -/
def appendText : Emit Unit := append (Jvm.reference Jvm.string)

/-- Stores the elements of an array of objects or a list, and goes to a label for anything else. -/
def findElements (otherwise : Nat) : Emit Unit := do
  let objectArray := "[" ++ Jvm.reference Jvm.object
  let notList ← newLabel
  let join ← newLabel
  castOr Jvm.list notList
  callInterface Jvm.list "toArray" (Jvm.method [] objectArray)
  store elementsSlot
  jump .goto join
  bindLabel notList
  castOr objectArray otherwise
  store elementsSlot
  bindLabel join

/-- Shows the elements in brackets. -/
def showElements : Emit Unit := do
  onClass .newObject Jvm.stringBuilder
  op .dup
  pushString "["
  callInit Jvm.stringBuilder (Jvm.method [Jvm.reference Jvm.string] "V")
  store textSlot
  pushInt 0
  store indexSlot
  let top ← newLabel
  let first ← newLabel
  let done ← newLabel
  bindLabel top
  load indexSlot
  load elementsSlot
  op .arrayLength
  jump .ifIcmpGe done
  load indexSlot
  jump .ifEq first
  load textSlot
  pushString ", "
  appendText
  op .pop
  bindLabel first
  load textSlot
  load elementsSlot
  load indexSlot
  op .aaload
  callStatic (← read).unit showName showDescriptor
  appendText
  op .pop
  increment indexSlot 1
  jump .goto top
  bindLabel done
  load textSlot
  pushString "]"
  appendText
  callVirtual Jvm.stringBuilder "toString" (Jvm.method [] (Jvm.reference Jvm.string))
  op .areturn

/-- The instructions of the method. -/
def showSteps : Emit Unit := do
  showPlainArray .int
  showPlainArray .boolean
  let other ← newLabel
  findElements other
  showElements
  bindLabel other
  load shownSlot
  callStatic Jvm.string "valueOf" showDescriptor
  op .areturn

/-- The method that shows any object. -/
def showMethod : Emit Unit :=
  plainMethod (.all [.isPrivate, .isStatic, .isSynthetic]) showName showDescriptor showSteps

end Emit

end Kotlet
