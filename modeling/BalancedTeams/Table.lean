import BalancedTeams.Value

/-!
# Tables

* `Table` : items filed under keys, where the item filed last under a key counts;
* `keysOf?` : the keys of a list of values, if all of them have one;
* `Table.of?` : the table of a list, by a value of each item.
-/

namespace BalancedTeams

/-- The keys of values in order, none if one of them cannot be looked up. -/
def keysOf? (values : List Value) : Option (List Key) := values.mapM Value.key?

structure Table (α : Type) where
  /-- The items with their keys, the one filed last first. -/
  entries : List (Key × α)

namespace Table
variable {α β : Type}

def ofList (items : List (Key × α)) : Table α := ⟨items.reverse⟩

/-- What `item` makes of the things of a list, filed under the keys of `field`. -/
def of? (field : β → Value) (item : β → α) (things : List β) : Option (Table α) := do
  let keys ← keysOf? (things.map field)
  return ofList (keys.zip (things.map item))

/-- The table with those of another filed after its own. -/
def append (t u : Table α) : Table α := ⟨u.entries ++ t.entries⟩

instance : Append (Table α) := ⟨append⟩

def find? (t : Table α) (k : Key) : Option α := (t.entries.find? fun e => e.1 == k).map Prod.snd

theorem find?_append (t u : Table α) (k : Key) :
    (t ++ u).find? k = (u.find? k).or (t.find? k) := by
  show find? ⟨u.entries ++ t.entries⟩ k = _
  simp only [find?, List.find?_append]
  cases u.entries.find? fun e => e.1 == k <;> rfl

end Table
end BalancedTeams
