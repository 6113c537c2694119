import Mathlib.Logic.Function.Basic
import Icl.Transition.Run

namespace Icl.JsEngine

open Icl.Cxx Icl.Transition

/-!
# `JSEngine`

The model of `jsengine/JSEngine.cpp`: several engines, and the maps and counters that they share.
`F` and `P` are the functions and the printers that are registered, `E` the engines.

Of Duktape it is assumed that each heap has its own globals, and that the magic value of a function
is kept in 16 bits, with a sign.  The globals that Duktape makes itself are left out: none of them
calls a registered function, or prints.  A heap that is not there is an object without contents, so
that its use is an access out of bounds.
-/

/-- What a global of a heap is. -/
inductive GlobalValue where
  /-- `GenericCallback`, with its magic value. -/
  | generic (magic : Int)
  | systemPrint
  | writeToFile
  | delayMs
  | uint (value : UInt32)
  deriving DecidableEq, Repr

/-- The globals of a heap. -/
abbrev Heap := Bytes → Option GlobalValue

/-- `JSEngine`. -/
structure JSEngine where
  mCtx : Option Heap
  mId : UInt32

/-- The constructor. -/
def JSEngine.new : JSEngine := { mCtx := none, mId := 0 }

/-- `gIdName`. -/
def gIdName : Bytes := ascii "ctx_id"

/-- The name of the function that prints. -/
def printName : Bytes := ascii "printConsole"

/-- The engines, and what they share. -/
structure World (E F P : Type) where
  gIdCounter : UInt32
  gPrintList : UInt32 → Option P
  gMagicIdCounter : UInt32
  gFunctionList : Int → Option F
  engines : E → JSEngine

/-- `duk_set_magic` and `duk_get_current_magic`. -/
def magicOf (magic : UInt32) : Int := Int.bmod magic.toNat (2 ^ 16)

/-- The counter as a key of `gFunctionList`. -/
def functionKey (counter : UInt32) : Int := Int.bmod counter.toNat (2 ^ 32)

/-- `name.c_str()`. -/
def cName (name : Bytes) : Bytes := name.takeWhile (· ≠ 0)

/-- The globals that `Initialize` makes. -/
def newHeap (mId : UInt32) : Heap := fun name =>
  if name = gIdName then some (.uint mId)
  else if name = ascii "delayMs" then some .delayMs
  else if name = ascii "writeToFile" then some .writeToFile
  else if name = printName then some .systemPrint
  else none

/-- A call. -/
inductive EngineCall (E F P : Type) where
  /-- `created` tells whether `duk_create_heap` succeeds. -/
  | initialize_ (e : E) (created : Bool)
  | registerPrinter (e : E) (printer : Option P)
  | registerFunction (e : E) (name : Bytes) (function : Option F)

namespace World

variable {E F P : Type}

/-- Before any call. -/
def init : World E F P :=
  { gIdCounter := 1, gPrintList := fun _ => none, gMagicIdCounter := 1
    gFunctionList := fun _ => none, engines := fun _ => .new }

/-! ### What a script reaches -/

/-- `GenericCallback`: the function that is executed. -/
def genericCallback (w : World E F P) (magic : Int) : Option F := w.gFunctionList magic

/-- `duk_get_uint`. -/
def getUint : GlobalValue → UInt32
  | .uint value => value
  | _ => 0

/-- `SystemPrint`: the printer that gets the message. -/
def systemPrint (w : World E F P) (heap : Heap) : Option P :=
  (heap gIdName).bind fun id => w.gPrintList (getUint id)

/-- The function that is executed when a script of the engine calls a global. -/
def callGlobal (w : World E F P) (e : E) (name : Bytes) : Option F :=
  (w.engines e).mCtx.bind fun heap =>
    match heap name with
    | some (.generic magic) => w.genericCallback magic
    | _ => none

variable [DecidableEq E]

/-- `JSEngine::Initialize`. -/
def initialize_ (e : E) (created : Bool) (w : World E F P) : World E F P :=
  let w := { w with gFunctionList := fun _ => none, gPrintList := fun _ => none }
  if created then
    let mId := w.gIdCounter
    { w with
      gIdCounter := w.gIdCounter + 1
      engines := Function.update w.engines e { mCtx := some (newHeap mId), mId } }
  else { w with engines := Function.update w.engines e { (w.engines e) with mCtx := none } }

/-- `JSEngine::RegisterPrinter`. -/
def registerPrinter (e : E) (printer : Option P) (w : World E F P) : World E F P :=
  match printer with
  | some printer =>
    { w with gPrintList := Function.update w.gPrintList (w.engines e).mId (some printer) }
  | none => w

/-- `JSEngine::RegisterFunction`. -/
def registerFunction (e : E) (name : Bytes) (function : Option F) (w : World E F P) :
    Except Fault (World E F P) :=
  match function with
  | some function =>
    match (w.engines e).mCtx with
    | some heap =>
      let heap := Function.update heap (cName name) (some (.generic (magicOf w.gMagicIdCounter)))
      .ok { w with
        engines := Function.update w.engines e { (w.engines e) with mCtx := some heap }
        gFunctionList :=
          Function.update w.gFunctionList (functionKey w.gMagicIdCounter) (some function)
        gMagicIdCounter := w.gMagicIdCounter + 1 }
    | none => .error (.outOfBounds 0 0)
  | none => .ok w

/-- One call. -/
def step (w : World E F P) : EngineCall E F P → Except Fault (World E F P)
  | .initialize_ e created => .ok (w.initialize_ e created)
  | .registerPrinter e printer => .ok (w.registerPrinter e printer)
  | .registerFunction e name function => w.registerFunction e name function

end World

end Icl.JsEngine
