import MoveTyping.Catalog.Load

/-!
# The bundled catalog

The modules of the standard library at `0x1` and of the framework at `0x2`, one definition each.
-/

namespace MoveTyping.Catalog.Bundled

def vectorModule : ModuleDecl where
  address := "0x1"
  name := "vector"
  functions :=
    [{ name := "empty", typeParams := ["Element"], ret := "vector<Element>" },
     { name := "length", typeParams := ["Element"], params := ["&vector<Element>"], ret := "u64" },
     { name := "borrow", typeParams := ["Element"], params := ["&vector<Element>", "u64"],
       ret := "&Element" },
     { name := "borrow_mut", typeParams := ["Element"],
       params := ["&mut vector<Element>", "u64"], ret := "&mut Element" },
     { name := "push_back", typeParams := ["Element"],
       params := ["&mut vector<Element>", "Element"] },
     { name := "pop_back", typeParams := ["Element"], params := ["&mut vector<Element>"],
       ret := "Element" },
     { name := "destroy_empty", typeParams := ["Element"], params := ["vector<Element>"] },
     { name := "swap", typeParams := ["Element"],
       params := ["&mut vector<Element>", "u64", "u64"] },
     { name := "singleton", typeParams := ["Element"], params := ["Element"],
       ret := "vector<Element>" },
     { name := "reverse", typeParams := ["Element"], params := ["&mut vector<Element>"] },
     { name := "append", typeParams := ["Element"],
       params := ["&mut vector<Element>", "vector<Element>"] },
     { name := "is_empty", typeParams := ["Element"], params := ["&vector<Element>"],
       ret := "bool" },
     { name := "contains", typeParams := ["Element"], params := ["&vector<Element>", "&Element"],
       ret := "bool" },
     { name := "index_of", typeParams := ["Element"], params := ["&vector<Element>", "&Element"],
       ret := "(bool, u64)" },
     { name := "remove", typeParams := ["Element"], params := ["&mut vector<Element>", "u64"],
       ret := "Element" },
     { name := "insert", typeParams := ["Element"],
       params := ["&mut vector<Element>", "Element", "u64"] },
     { name := "swap_remove", typeParams := ["Element"],
       params := ["&mut vector<Element>", "u64"], ret := "Element" }]
  constants := [⟨"EINDEX_OUT_OF_BOUNDS", "u64"⟩]

def optionModule : ModuleDecl where
  address := "0x1"
  name := "option"
  structs :=
    [{ name := "Option", abilities := ["copy", "drop", "store"], typeParams := ["Element"],
       fields := [⟨"vec", "vector<Element>"⟩] }]
  functions :=
    [{ name := "none", typeParams := ["Element"], ret := "Option<Element>" },
     { name := "some", typeParams := ["Element"], params := ["Element"],
       ret := "Option<Element>" },
     { name := "is_none", typeParams := ["Element"], params := ["&Option<Element>"],
       ret := "bool" },
     { name := "is_some", typeParams := ["Element"], params := ["&Option<Element>"],
       ret := "bool" },
     { name := "contains", typeParams := ["Element"], params := ["&Option<Element>", "&Element"],
       ret := "bool" },
     { name := "borrow", typeParams := ["Element"], params := ["&Option<Element>"],
       ret := "&Element" },
     { name := "borrow_mut", typeParams := ["Element"], params := ["&mut Option<Element>"],
       ret := "&mut Element" },
     { name := "get_with_default", typeParams := ["Element: copy + drop"],
       params := ["&Option<Element>", "Element"], ret := "Element" },
     { name := "fill", typeParams := ["Element"], params := ["&mut Option<Element>", "Element"] },
     { name := "extract", typeParams := ["Element"], params := ["&mut Option<Element>"],
       ret := "Element" },
     { name := "destroy_some", typeParams := ["Element"], params := ["Option<Element>"],
       ret := "Element" },
     { name := "destroy_with_default", typeParams := ["Element: drop"],
       params := ["Option<Element>", "Element"], ret := "Element" },
     { name := "destroy_none", typeParams := ["Element"], params := ["Option<Element>"] },
     { name := "to_vec", typeParams := ["Element"], params := ["Option<Element>"],
       ret := "vector<Element>" }]
  constants := [⟨"EOPTION_IS_SET", "u64"⟩, ⟨"EOPTION_NOT_SET", "u64"⟩]

def stringModule : ModuleDecl where
  address := "0x1"
  name := "string"
  structs :=
    [{ name := "String", abilities := ["copy", "drop", "store"],
       fields := [⟨"bytes", "vector<u8>"⟩], primitive := some "String" }]
  functions :=
    [{ name := "utf8", params := ["vector<u8>"], ret := "String" },
     { name := "try_utf8", params := ["vector<u8>"], ret := "0x1::option::Option<String>" },
     { name := "from_ascii", params := ["0x1::ascii::String"], ret := "String" },
     { name := "to_ascii", params := ["String"], ret := "0x1::ascii::String" },
     { name := "bytes", params := ["&String"], ret := "&vector<u8>" },
     { name := "is_empty", params := ["&String"], ret := "bool" },
     { name := "length", params := ["&String"], ret := "u64" },
     { name := "append", params := ["&mut String", "String"] },
     { name := "append_utf8", params := ["&mut String", "vector<u8>"] },
     { name := "insert", params := ["&mut String", "u64", "String"] },
     { name := "sub_string", params := ["&String", "u64", "u64"], ret := "String" },
     { name := "index_of", params := ["&String", "&String"], ret := "u64" }]
  constants := [⟨"EINVALID_UTF8", "u64"⟩, ⟨"EINVALID_INDEX", "u64"⟩]

def asciiModule : ModuleDecl where
  address := "0x1"
  name := "ascii"
  structs :=
    [{ name := "String", abilities := ["copy", "drop", "store"],
       fields := [⟨"bytes", "vector<u8>"⟩] },
     { name := "Char", abilities := ["copy", "drop", "store"], fields := [⟨"byte", "u8"⟩] }]
  functions :=
    [{ name := "string", params := ["vector<u8>"], ret := "String" },
     { name := "try_string", params := ["vector<u8>"], ret := "0x1::option::Option<String>" },
     { name := "char", params := ["u8"], ret := "Char" },
     { name := "length", params := ["&String"], ret := "u64" },
     { name := "as_bytes", params := ["&String"], ret := "&vector<u8>" },
     { name := "into_bytes", params := ["String"], ret := "vector<u8>" },
     { name := "push_char", params := ["&mut String", "Char"] },
     { name := "pop_char", params := ["&mut String"], ret := "Char" }]

def signerModule : ModuleDecl where
  address := "0x1"
  name := "signer"
  functions :=
    [{ name := "address_of", params := ["&signer"], ret := "address" },
     { name := "borrow_address", params := ["&signer"], ret := "&address" }]

def bcsModule : ModuleDecl where
  address := "0x1"
  name := "bcs"
  functions :=
    [{ name := "to_bytes", typeParams := ["MoveValue"], params := ["&MoveValue"],
       ret := "vector<u8>" }]

def hashModule : ModuleDecl where
  address := "0x1"
  name := "hash"
  functions :=
    [{ name := "sha2_256", params := ["vector<u8>"], ret := "vector<u8>" },
     { name := "sha3_256", params := ["vector<u8>"], ret := "vector<u8>" }]

def objectModule : ModuleDecl where
  address := "0x2"
  name := "object"
  structs :=
    [{ name := "ID", abilities := ["copy", "drop", "store"], fields := [⟨"bytes", "address"⟩] },
     { name := "UID", abilities := ["store"], fields := [⟨"id", "ID"⟩] }]
  functions :=
    [{ name := "new", params := ["&mut tx_context::TxContext"], ret := "UID" },
     { name := "delete", params := ["UID"] },
     { name := "id", typeParams := ["T: key"], params := ["&T"], ret := "ID" },
     { name := "borrow_id", typeParams := ["T: key"], params := ["&T"], ret := "&ID" },
     { name := "id_address", typeParams := ["T: key"], params := ["&T"], ret := "address" },
     { name := "uid_to_inner", params := ["&UID"], ret := "ID" },
     { name := "uid_as_inner", params := ["&UID"], ret := "&ID" },
     { name := "uid_to_address", params := ["&UID"], ret := "address" },
     { name := "uid_to_bytes", params := ["&UID"], ret := "vector<u8>" },
     { name := "id_to_address", params := ["&ID"], ret := "address" },
     { name := "id_to_bytes", params := ["&ID"], ret := "vector<u8>" },
     { name := "id_from_address", params := ["address"], ret := "ID" }]

def txContextModule : ModuleDecl where
  address := "0x2"
  name := "tx_context"
  structs :=
    [{ name := "TxContext", abilities := ["drop"],
       fields := [⟨"sender", "address"⟩, ⟨"tx_hash", "vector<u8>"⟩, ⟨"epoch", "u64"⟩,
         ⟨"epoch_timestamp_ms", "u64"⟩, ⟨"ids_created", "u64"⟩] }]
  functions :=
    [{ name := "sender", params := ["&TxContext"], ret := "address" },
     { name := "digest", params := ["&TxContext"], ret := "&vector<u8>" },
     { name := "epoch", params := ["&TxContext"], ret := "u64" },
     { name := "epoch_timestamp_ms", params := ["&TxContext"], ret := "u64" },
     { name := "fresh_object_address", params := ["&mut TxContext"], ret := "address" }]

def transferModule : ModuleDecl where
  address := "0x2"
  name := "transfer"
  structs :=
    [{ name := "Receiving", abilities := ["drop"], typeParams := ["phantom T: key"],
       fields := [⟨"id", "object::ID"⟩, ⟨"version", "u64"⟩] }]
  functions :=
    [{ name := "transfer", typeParams := ["T: key"], params := ["T", "address"] },
     { name := "public_transfer", typeParams := ["T: key + store"], params := ["T", "address"] },
     { name := "freeze_object", typeParams := ["T: key"], params := ["T"] },
     { name := "public_freeze_object", typeParams := ["T: key + store"], params := ["T"] },
     { name := "share_object", typeParams := ["T: key"], params := ["T"] },
     { name := "public_share_object", typeParams := ["T: key + store"], params := ["T"] },
     { name := "receive", typeParams := ["T: key"],
       params := ["&mut object::UID", "Receiving<T>"], ret := "T" }]

def balanceModule : ModuleDecl where
  address := "0x2"
  name := "balance"
  structs :=
    [{ name := "Balance", abilities := ["store"], typeParams := ["phantom T"],
       fields := [⟨"value", "u64"⟩] },
     { name := "Supply", abilities := ["store"], typeParams := ["phantom T"],
       fields := [⟨"value", "u64"⟩] }]
  functions :=
    [{ name := "value", typeParams := ["T"], params := ["&Balance<T>"], ret := "u64" },
     { name := "supply_value", typeParams := ["T"], params := ["&Supply<T>"], ret := "u64" },
     { name := "zero", typeParams := ["T"], ret := "Balance<T>" },
     { name := "join", typeParams := ["T"], params := ["&mut Balance<T>", "Balance<T>"],
       ret := "u64" },
     { name := "split", typeParams := ["T"], params := ["&mut Balance<T>", "u64"],
       ret := "Balance<T>" },
     { name := "withdraw_all", typeParams := ["T"], params := ["&mut Balance<T>"],
       ret := "Balance<T>" },
     { name := "destroy_zero", typeParams := ["T"], params := ["Balance<T>"] },
     { name := "increase_supply", typeParams := ["T"], params := ["&mut Supply<T>", "u64"],
       ret := "Balance<T>" },
     { name := "decrease_supply", typeParams := ["T"],
       params := ["&mut Supply<T>", "Balance<T>"], ret := "u64" }]
  constants := [⟨"ENonZero", "u64"⟩, ⟨"EOverflow", "u64"⟩, ⟨"ENotEnough", "u64"⟩]

def coinModule : ModuleDecl where
  address := "0x2"
  name := "coin"
  structs :=
    [{ name := "Coin", abilities := ["key", "store"], typeParams := ["phantom T"],
       fields := [⟨"id", "object::UID"⟩, ⟨"balance", "balance::Balance<T>"⟩] },
     { name := "TreasuryCap", abilities := ["key", "store"], typeParams := ["phantom T"],
       fields := [⟨"id", "object::UID"⟩, ⟨"total_supply", "balance::Supply<T>"⟩] }]
  functions :=
    [{ name := "value", typeParams := ["T"], params := ["&Coin<T>"], ret := "u64" },
     { name := "balance", typeParams := ["T"], params := ["&Coin<T>"],
       ret := "&balance::Balance<T>" },
     { name := "balance_mut", typeParams := ["T"], params := ["&mut Coin<T>"],
       ret := "&mut balance::Balance<T>" },
     { name := "total_supply", typeParams := ["T"], params := ["&TreasuryCap<T>"], ret := "u64" },
     { name := "from_balance", typeParams := ["T"],
       params := ["balance::Balance<T>", "&mut tx_context::TxContext"], ret := "Coin<T>" },
     { name := "into_balance", typeParams := ["T"], params := ["Coin<T>"],
       ret := "balance::Balance<T>" },
     { name := "take", typeParams := ["T"],
       params := ["&mut balance::Balance<T>", "u64", "&mut tx_context::TxContext"],
       ret := "Coin<T>" },
     { name := "put", typeParams := ["T"], params := ["&mut balance::Balance<T>", "Coin<T>"] },
     { name := "join", typeParams := ["T"], params := ["&mut Coin<T>", "Coin<T>"] },
     { name := "split", typeParams := ["T"],
       params := ["&mut Coin<T>", "u64", "&mut tx_context::TxContext"], ret := "Coin<T>" },
     { name := "divide_into_n", typeParams := ["T"],
       params := ["&mut Coin<T>", "u64", "&mut tx_context::TxContext"], ret := "vector<Coin<T>>" },
     { name := "zero", typeParams := ["T"], params := ["&mut tx_context::TxContext"],
       ret := "Coin<T>" },
     { name := "destroy_zero", typeParams := ["T"], params := ["Coin<T>"] },
     { name := "mint", typeParams := ["T"],
       params := ["&mut TreasuryCap<T>", "u64", "&mut tx_context::TxContext"], ret := "Coin<T>" },
     { name := "mint_balance", typeParams := ["T"], params := ["&mut TreasuryCap<T>", "u64"],
       ret := "balance::Balance<T>" },
     { name := "burn", typeParams := ["T"], params := ["&mut TreasuryCap<T>", "Coin<T>"],
       ret := "u64" }]
  constants := [⟨"ENotEnough", "u64"⟩, ⟨"EBadWitness", "u64"⟩]

def suiModule : ModuleDecl where
  address := "0x2"
  name := "sui"
  structs :=
    [{ name := "SUI", abilities := ["drop"] }]

def eventModule : ModuleDecl where
  address := "0x2"
  name := "event"
  functions :=
    [{ name := "emit", typeParams := ["T: copy + drop"], params := ["T"] }]

def declaration : Declaration where
  aliases := [("std", "0x1"), ("sui", "0x2")]
  modules :=
    [vectorModule, optionModule, stringModule, asciiModule, signerModule, bcsModule, hashModule,
     objectModule, txContextModule, transferModule, balanceModule, coinModule, suiModule,
     eventModule]

end MoveTyping.Catalog.Bundled

namespace MoveTyping.Catalog

/-- The library that sessions know when they are given no other. -/
def bundled : Catalog := (load Bundled.declaration).toOption.getD empty

end MoveTyping.Catalog
