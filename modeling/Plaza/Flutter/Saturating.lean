import Plaza.Lib.Dart

-- Checked arithmetic for the ports of code which relies on it.
namespace Plaza.Flutter.Saturating

open Dart

def intMax : Word := 0x7FFFFFFFFFFFFFFF

def intMin : Word := -0x8000000000000000

-- Never below zero: a negative duration stands for a measurement which cannot be.
def saturatingSub (a b : Word) : Word :=
  if a.le b then
    0
  else
    let result := a - b
    if result.lt 0 then intMax else result

def saturatingSubSigned (a b : Word) : Word :=
  let result := a - b
  if Word.le 0 a ∧ b.lt 0 ∧ result.lt 0 then intMax
  else if a.lt 0 ∧ Word.lt 0 b ∧ Word.lt 0 result then intMin
  else result

def saturatingAdd (a b : Word) : Word :=
  let result := a + b
  if Word.lt 0 a ∧ Word.lt 0 b ∧ result.lt 0 then intMax
  else if a.lt 0 ∧ b.lt 0 ∧ Word.le 0 result then intMin
  else result

-- A product which does not divide back has wrapped.
def saturatingMul (a b : Word) : Word :=
  if a = 0 ∨ b = 0 then
    0
  else
    let result := a * b
    if result.quot b ≠ a then
      if Word.lt 0 a = Word.lt 0 b then intMax else intMin
    else
      result

def checkedAdd (a b : Word) : Option Word :=
  let result := a + b
  if Word.lt 0 a ∧ Word.lt 0 b ∧ result.lt 0 then none
  else if a.lt 0 ∧ b.lt 0 ∧ Word.le 0 result then none
  else some result

def checkedSub (a b : Word) : Option Word :=
  let result := a - b
  if Word.le 0 a ∧ b.lt 0 ∧ result.lt 0 then none
  else if a.lt 0 ∧ Word.lt 0 b ∧ Word.lt 0 result then none
  else some result

end Plaza.Flutter.Saturating
