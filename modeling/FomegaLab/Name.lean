-- Names of term variables and of type variables, and the supply of uniques
-- that new names draw from.

namespace FomegaLab

/-- The name of a term variable: a text to read and a unique to tell it from
every other name. -/
structure Name where
  text : String
  unique : Int
deriving DecidableEq

/-- The name of a type variable. Type variables and term variables never mix,
so they have two types of names. -/
structure TyName where
  text : String
  unique : Int
deriving DecidableEq

/-- A text with its unique, such as `x0_42`. -/
def uniqueText (text : String) (unique : Int) : String := text ++ "_" ++ toString unique

def Name.full (x : Name) : String := uniqueText x.text x.unique

def TyName.full (a : TyName) : String := uniqueText a.text a.unique

/-- A computation that may draw uniques. The state is the next unique. -/
abbrev Fresh := StateM Int

/-- Draws the next unique. -/
def Fresh.unique : Fresh Int := fun n => (n, n + 1)

@[simp] theorem Fresh.pure_apply {α : Type} (a : α) (n : Int) : (pure a : Fresh α) n = (a, n) :=
  rfl

@[simp] theorem Fresh.bind_apply {α β : Type} (m : Fresh α) (f : α → Fresh β) (n : Int) :
    (m >>= f) n = f (m n).1 (m n).2 := rfl

@[simp] theorem Fresh.map_apply {α β : Type} (f : α → β) (m : Fresh α) (n : Int) :
    (f <$> m) n = (f (m n).1, (m n).2) := rfl

/-- The two sorts of names are made in the same way. -/
class NameSort (ν : Type) where
  make : String → Int → ν
  text : ν → String
  unique : ν → Int

instance : NameSort Name := ⟨Name.mk, Name.text, Name.unique⟩
instance : NameSort TyName := ⟨TyName.mk, TyName.text, TyName.unique⟩

/-- A new name with the given text and the next unique. -/
def fresh {ν : Type} [NameSort ν] (text : String) : Fresh ν :=
  fun n => (NameSort.make text n, n + 1)

@[simp] theorem fresh_apply {ν : Type} [NameSort ν] (text : String) (n : Int) :
    (fresh text : Fresh ν) n = (NameSort.make text n, n + 1) := rfl

end FomegaLab
