/-! # Regions of a text

* `Span`: a half-open region of a text, counted in bytes of its UTF-8 form;
* `byteLength`: the length of a list of characters in bytes. -/

namespace SymCalc

/-- The region from byte `start` up to byte `stop` of a text. -/
structure Span where
  start : Nat
  stop : Nat
deriving DecidableEq, Repr, Inhabited

/-- The region from the start of `a` to the end of `b`. -/
def Span.through (a b : Span) : Span := ⟨a.start, b.stop⟩

/-- The empty region at byte `n`. -/
def Span.at (n : Nat) : Span := ⟨n, n⟩

/-- The number of bytes that `cs` takes in UTF-8. -/
def byteLength : List Char → Nat
  | [] => 0
  | c :: cs => c.utf8Size + byteLength cs

@[simp] theorem byteLength_nil : byteLength [] = 0 := rfl

@[simp] theorem byteLength_cons (c : Char) (cs : List Char) :
    byteLength (c :: cs) = c.utf8Size + byteLength cs := rfl

@[simp] theorem byteLength_append (cs ds : List Char) :
    byteLength (cs ++ ds) = byteLength cs + byteLength ds := by
  induction cs with
  | nil => simp
  | cons c cs ih => simp [ih, Nat.add_assoc]

end SymCalc
