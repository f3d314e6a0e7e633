import Mathlib.Data.Finset.Card
import Mathlib.Data.Multiset.Bind
import Mathlib.Data.Multiset.FinsetOps
import Plaza.Lib.Execution
import Plaza.Lib.Maps

namespace Plaza.ServerUtils

-- Who each key has chosen to care about and who has chosen them.
structure Subscriptions (K : Type) where
  out   : Multimap K K
  back  : Multimap K K
  limit : Nat

namespace Subscriptions

variable {K : Type}

def new (limit : Nat) : Subscriptions K where
  out   := .empty
  back  := .empty
  limit := limit

def countOf (s : Subscriptions K) (key : K) : Nat :=
  s.out.get key |>.card

-- Everyone `key` is subscribed to.
def of (s : Subscriptions K) (key : K) : Finset K :=
  s.out.get key

-- Everyone subscribed to `key`.
def watchers (s : Subscriptions K) (key : K) : Finset K :=
  s.back.get key

def clear (s : Subscriptions K) : Subscriptions K :=
  { s with out := .empty, back := .empty }

variable [DecidableEq K]

def isSubscribed (s : Subscriptions K) (who to' : K) : Bool :=
  to' ∈ s.out.get who

def link (s : Subscriptions K) (who to' : K) : Subscriptions K :=
  { s with out := s.out.insert who to', back := s.back.insert to' who }

def subscribe (s : Subscriptions K) (who to' : K) : Subscriptions K × Bool :=
  if who = to' then
    (s, false)
  else if s.limit ≤ s.countOf who ∧ !s.isSubscribed who to' then
    (s, false)
  else
    (s.link who to', true)

def hasRoom (s : Subscriptions K) (who to' : K) : Bool :=
  s.isSubscribed who to' || s.countOf who < s.limit

def pair (s : Subscriptions K) (a b : K) : Subscriptions K × Bool :=
  if a = b then
    (s, false)
  else if !s.hasRoom a b || !s.hasRoom b a then
    (s, false)
  else
    (((s.subscribe a b).fst.subscribe b a).fst, true)

-- A list in the order of a hash set is a multiset: nothing is promised about that order.
def groupOf (s : Subscriptions K) (key : K) : Multiset K :=
  key ::ₘ ((s.out.get key).filter (· ∈ s.back.get key)).val

theorem link_comm {s : Subscriptions K} {a b c d : K} : (s.link a b).link c d = (s.link c d).link a b := by
  simp [link, Multimap.insert_comm]

def linkDistinct (s : Subscriptions K) (p : K × K) : Subscriptions K :=
  if p.fst ≠ p.snd then s.link p.fst p.snd else s

instance : RightCommutative (linkDistinct (K := K)) where
  right_comm s p q := by
    simp only [linkDistinct]
    split <;> split <;> simp [link_comm]

-- Everyone of the group holding `a`, then everyone of the group holding `b` who is not listed yet.
def merged (s : Subscriptions K) (a b : K) : Multiset K :=
  (s.groupOf b).ndunion (s.groupOf a)

def group (s : Subscriptions K) (a b : K) : Subscriptions K × Bool :=
  if a = b then
    (s, false)
  else if s.limit < (s.merged a b).card - 1 then
    (s, false)
  else
    ((s.merged a b ×ˢ s.merged a b).foldl linkDistinct s, true)

def unsubscribe (s : Subscriptions K) (who from' : K) : Subscriptions K :=
  { s with out := s.out.erase who from', back := s.back.erase from' who }

theorem unsubscribe_comm {s : Subscriptions K} {a b c d : K} :
    (s.unsubscribe a b).unsubscribe c d = (s.unsubscribe c d).unsubscribe a b := by
  simp [unsubscribe, Multimap.erase_comm]

def unsubscribeBoth (key : K) (s : Subscriptions K) (other : K) : Subscriptions K :=
  (s.unsubscribe key other).unsubscribe other key

instance {key : K} : RightCommutative (unsubscribeBoth key) where
  right_comm s a b := by
    simp only [unsubscribeBoth]
    rw [unsubscribe_comm (a := a) (c := key), unsubscribe_comm (a := a) (c := b),
      unsubscribe_comm (a := key) (b := a) (c := key), unsubscribe_comm (a := key) (b := a) (c := b)]

-- Everyone else of the group holding `key`.
def others (s : Subscriptions K) (key : K) : Multiset K :=
  s.groupOf key |>.filter (· ≠ key)

def leaveGroup (s : Subscriptions K) (key : K) : Subscriptions K × Multiset K :=
  let members := s.others key
  let left    := members.foldl (unsubscribeBoth key) s
  match members.sole with
  | none       => (left, members)
  -- One left behind is not a party.
  | some alone => ((left.others alone).foldl (unsubscribeBoth alone) left, members)

def remove (s : Subscriptions K) (key : K) : Subscriptions K × Multiset K :=
  let watchers := s.back.get key |>.val
  let back     := s.back.remove key
  let out      := watchers.foldl (·.erase · key) s.out
  let mine     := out.get key |>.val
  ({ s with out := out.remove key, back := mine.foldl (·.erase · key) back }, watchers)

inductive Call (K : Type)
  | subscribe (who to' : K)
  | pair (a b : K)
  | group (a b : K)
  | unsubscribe (who from' : K)
  | leaveGroup (key : K)
  | remove (key : K)
  | clear
  deriving DecidableEq, Repr

def apply (s : Subscriptions K) : Call K → Subscriptions K
  | .subscribe who to'     => (s.subscribe who to').fst
  | .pair a b              => (s.pair a b).fst
  | .group a b             => (s.group a b).fst
  | .unsubscribe who from' => s.unsubscribe who from'
  | .leaveGroup key        => (s.leaveGroup key).fst
  | .remove key            => (s.remove key).fst
  | .clear                 => s.clear

-- Only the calls that add subscriptions can refuse.
def accepts (s : Subscriptions K) : Call K → Bool
  | .subscribe who to' => (s.subscribe who to').snd
  | .pair a b          => (s.pair a b).snd
  | .group a b         => (s.group a b).snd
  | _                  => true

def machine (K : Type) [DecidableEq K] : Machine (Subscriptions K) (Call K) where
  step s call := some (s.apply call)

end Subscriptions

end Plaza.ServerUtils
