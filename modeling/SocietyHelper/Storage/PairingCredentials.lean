import SocietyHelper.Library.Hmac
import SocietyHelper.Library.Json
import SocietyHelper.Library.Table

/-! # Pairing credentials

The account service hands out keys for five minutes each, or seeds for whole days
from which the devices derive these keys. A device proves a context with the key
of the current five minutes, and its neighbours accept that key or the ones
beside it.
-/

namespace SocietyHelper.Storage

open Library

/-- A point in time in milliseconds, in 64 bits. -/
structure Time where
  msecs : Int
  bounds : -(2 ^ 63) ≤ msecs ∧ msecs < 2 ^ 63

/-- Whole seconds; division rounds towards zero. -/
def seconds (msecs : Int) : Int := msecs.tdiv 1000

def Time.epoch (t : Time) : Int := (seconds t.msecs).tdiv 300

def day (msecs : Int) : Int := (seconds msecs).tdiv 86400

/-- The date library: how a date is read, and its calendar. -/
structure Calendar (δ : Type) where
  fromString : Text → Option δ
  msecs : δ → Int
  addDays : δ → Int → δ

/-- The credentials of an account. A version is absent unless it is a whole number. -/
structure Credentials where
  scope : Value
  version : Option Int := none
  expiresAt : Text
  issuedAt : Text := []
  refreshAt : Text := []
  keys : Table Text Value := .empty
  seeds : Table Text Value := .empty

/-- What a device shows for a context. -/
structure Proof where
  scope : Value
  epoch : Value
  mac : Value

/-- The hexadecimal text of a numbered key or seed, empty if there is none. -/
def numbered (values : Table Text Value) (n : Int) : Text := ((values.find? (decimalInt n)).getD .undefined).text

namespace SocietyPairingCredentials

variable {δ : Type} (dates : Calendar δ) (c : Credentials)

/-- Version two: the seeds cover the days from the one of issue to the one before which the credentials expire. -/
def validSeeds (expiry now : Int) : Bool :=
  match dates.fromString c.issuedAt, dates.fromString c.refreshAt with
  | some issued, some refresh =>
    let firstDay := day (dates.msecs issued)
    !(now + 300000 < dates.msecs issued) && !(dates.msecs refresh < dates.msecs issued) && !(expiry < dates.msecs refresh) &&
      !(dates.msecs (dates.addDays issued 7) < expiry) && c.seeds.rows.length ≠ 0 && c.seeds.rows.length ≤ 7 &&
      !((firstDay + c.seeds.rows.length) * 86400 < seconds expiry) &&
      (List.range c.seeds.rows.length).all fun offset => hex (numbered c.seeds (firstDay + offset))
  | _, _ => false

def valid (now : Time) : Bool :=
  match dates.fromString c.expiresAt with
  | none => false
  | some date =>
    let expiry := dates.msecs date
    if ¬hex c.scope.text ∨ expiry ≤ now.msecs then false
    else if c.version.getD 1 = 1 then
      !(now.msecs + 600000 < expiry) && 2 ≤ c.keys.rows.length && c.keys.rows.length ≤ 3 && hex (numbered c.keys now.epoch)
    else c.version.getD 0 = 2 && validSeeds dates c expiry now.msecs

def key (epoch : Int) (now : Time) : Bytes :=
  if ¬valid dates c now ∨ epoch < 0 then []
  else if c.version.getD 1 = 1 then
    if hex (numbered c.keys epoch) then fromHex (numbered c.keys epoch) else []
  else if hex (numbered c.seeds (epoch.tdiv 288)) then
    fromHex (hmacSha256 (fromHex (numbered c.seeds (epoch.tdiv 288)))
      (utf8 (text "society-auto-pair-key-v2\n" ++ c.scope.text ++ '\n' :: decimalInt epoch)))
  else []

/-- The text a proof is a code of. -/
def message (context : Bytes) : Bytes := utf8 (text "society-lan-account-v1\n") ++ context

def sign (context : Bytes) (now : Time) : Option Proof :=
  let secret := key dates c now.epoch now
  if secret = [] then none
  else some ⟨c.scope, .string (decimalInt now.epoch), .string (hmacSha256 secret (message context))⟩

def verify (context : Bytes) (proof : Proof) (now : Time) : Bool :=
  match toLongLong proof.epoch.text with
  | none => false
  | some epoch =>
    let secret := key dates c epoch now
    !(epoch < now.epoch - 1 || now.epoch + 1 < epoch || proof.scope ≠ c.scope) && secret ≠ [] && hex proof.mac.text &&
      hmacSha256 secret (message context) = proof.mac.text

/-- Whether the credentials have a key for the five minutes of a time: for the daily seeds, whether its day is
one of theirs. -/
def covered (now : Time) : Bool :=
  0 ≤ now.epoch && (c.version.getD 1 = 1 || (dates.fromString c.issuedAt).any fun issued =>
    day (dates.msecs issued) ≤ day now.msecs && day now.msecs < day (dates.msecs issued) + c.seeds.rows.length)

end SocietyPairingCredentials

end SocietyHelper.Storage
