/-!
Records of what an operation did, kept beside its result. The text of a record
is put together only when it is read. Records never influence a result: the
value of a traced computation is the value of the plain one.
-/

namespace GuardedMachines

inductive Level where
  | debug
  | info
  | warn
deriving DecidableEq

def Level.text : Level → String
  | debug => "DEBUG"
  | info => "INFO"
  | warn => "WARN"

structure Record where
  level : Level
  message : Thunk String

namespace Record

def text (record : Record) : String := record.level.text ++ " " ++ record.message.get

def debug (message : Unit → String) : Record := ⟨.debug, ⟨message⟩⟩

def info (message : Unit → String) : Record := ⟨.info, ⟨message⟩⟩

def warn (message : Unit → String) : Record := ⟨.warn, ⟨message⟩⟩

end Record

structure Traced (α : Type) where
  value : α
  records : List Record

namespace Traced

instance : Monad Traced where
  pure a := ⟨a, []⟩
  bind x f :=
    let y := f x.value
    ⟨y.value, x.records ++ y.records⟩

variable {α β : Type}

@[simp] theorem value_pure (a : α) : (pure a : Traced α).value = a := rfl

@[simp] theorem value_bind (x : Traced α) (f : α → Traced β) :
    (x >>= f).value = (f x.value).value := rfl

def note (record : Record) : Traced Unit := ⟨(), [record]⟩

def notes (records : List Record) : Traced Unit := ⟨(), records⟩

end Traced

end GuardedMachines
