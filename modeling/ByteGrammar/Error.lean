namespace ByteGrammar

-- Why the system gave out no memory for a sequence
inductive ReserveError where
  | capacityOverflow
  | allocatorRefused
deriving DecidableEq

def ReserveError.message : ReserveError → String
  | capacityOverflow =>
    "memory allocation failed because the computed capacity exceeded the collection's maximum"
  | allocatorRefused => "memory allocation failed because the memory allocator returned an error"

-- Why a sequence could not be stored
inductive StorageError where
  | reserve (reason : ReserveError)
  | limitExceeded (limit : Nat)
  | arena
deriving DecidableEq

namespace StorageError

def message : StorageError → String
  | reserve reason => "failed to reserve sequence storage: " ++ reason.message
  | limitExceeded limit => "sequence limit of " ++ toString limit ++ " elements exceeded"
  | arena => "arena could not grow sequence storage"

-- The messages of what lies behind the error, nearest first
def sources : StorageError → List String
  | reserve reason => [reason.message]
  | limitExceeded _ => []
  | arena => []

end StorageError

-- What ends a parse at once. A `custom` error is raised by the user of the library and may
-- have causes of its own. A `wrapped` error is handed on as if it were the user's.
inductive Error where
  | storage (error : StorageError)
  | custom (message : String) (causes : List String)
  | wrapped (inner : Error)
deriving DecidableEq

namespace Error

def message : Error → String
  | storage error => "allocation failed: " ++ error.message
  | custom message _ => message
  | wrapped inner => inner.message

-- The messages of what lies behind the error, nearest first and without its own.
-- A wrapper is transparent: it speaks with the message of the inner error, so the
-- inner error is not listed again.
def sources : Error → List String
  | storage error => error.message :: error.sources
  | custom _ causes => causes
  | wrapped inner => inner.sources

-- Wrapping hides the kind of the inner error
def storage? : Error → Option StorageError
  | storage error => some error
  | custom _ _ => none
  | wrapped _ => none

end Error

end ByteGrammar
