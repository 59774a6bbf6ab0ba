import CitadelAgent.Conversations.Cbor
import CitadelAgent.Conversations.Types

/-!
# Reactions

`reactions.rs`: the list as the CBOR bytes a page stores, and how one change folds into it.
-/

namespace CitadelAgent.Conversations.Reactions
open Cbor

/-- The six reactions the UI offers; anything else from a peer is ignored. -/
def REACTION_EMOJIS : List String := ["👍", "❤️", "😂", "😮", "😢", "🎉"]

def item (r : Reaction) : Value :=
  .object [("emoji", .text r.emoji), ("reactorCid", .bigint r.reactorCid), ("at", .number r.at_),
    ("active", .bool r.active)]

def encode (list : List Reaction) : Option (List UInt8) :=
  if list = [] then none else some (Value.array (list.map item)).encode

/-- A whole reaction, or nothing. -/
def ofItem (v : Value) : Option Reaction := do
  let emoji ← (← v.get "emoji").asStr
  let reactorCid ← (← v.get "reactorCid").asBigint
  let at_ ← (← v.get "at").asNumber
  let active ← (← v.get "active").asBool
  return { emoji, reactorCid, at_, active }

def decode (bytes : List UInt8) : Option (List Reaction) :=
  match Value.decode bytes with
  | .ok (.array items) =>
    let list := items.filterMap ofItem
    if list = [] then none else some list
  | _ => none

def same (change r : Reaction) : Bool := r.reactorCid = change.reactorCid && r.emoji = change.emoji

/-- `current` with `change` applied, or `none` when it changes nothing: an unknown emoji, a non-finite time, or a
change no newer than the one held for the same reactor and emoji. -/
def fold (current : Option (List Reaction)) (change : Reaction) : Option (List Reaction) :=
  if change.emoji ∉ REACTION_EMOJIS ∨ change.at_.isFinite = false then none
  else
    let list := current.getD []
    match list.find? (same change) with
    | some held =>
      if change.at_.le held.at_ then none
      else some (list.map fun r => if same change r then change else r)
    | none => some (list ++ [change])

end CitadelAgent.Conversations.Reactions
