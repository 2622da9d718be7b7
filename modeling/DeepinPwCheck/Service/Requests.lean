import DeepinPwCheck.Text.Decimal

/-!
# Requests to the configuration service

`service.go`: the D-Bus calls that change the configuration file. The content of a file is
the keys and values that the key-file library finds in it; saving what was loaded keeps them.
-/

namespace DeepinPwCheck

open CText

/-- The values of a key file by section and key. -/
abbrev KeyFile := Bytes → Bytes → Option Bytes

/-- What the service calls of the key-file library, which is not part of the repository:
`LoadFromData`, and the functions that set a key of a section. -/
structure KeyFileLib where
  loadFromData : Bytes → Option KeyFile
  setString : KeyFile → Bytes → Bytes → Bytes → KeyFile
  setInt : KeyFile → Bytes → Bytes → ℤ → KeyFile
  setBool : KeyFile → Bytes → Bytes → Bool → KeyFile

/-- The text of a truth value in a key file. -/
def flagText (value : Bool) : Bytes := if value then bytes "true" else bytes "false"

/-- The `Set` functions give their key the text of the value, and leave all other keys. -/
structure KeyFileLib.Faithful (lib : KeyFileLib) : Prop where
  setString_self : ∀ kf name key value, lib.setString kf name key value name key = some value
  setString_of_ne : ∀ kf name key value name' key', ¬ (name' = name ∧ key' = key) →
    lib.setString kf name key value name' key' = kf name' key'
  setInt_eq : ∀ kf name key value,
    lib.setInt kf name key value = lib.setString kf name key (decimal value)
  setBool_eq : ∀ kf name key value,
    lib.setBool kf name key value = lib.setString kf name key (flagText value)

/-- A content without keys. -/
def emptyKeyFile : KeyFile := fun _ _ => none

/-- Set the value of a key in a content. -/
def KeyFile.set (kf : KeyFile) (name key value : Bytes) : KeyFile :=
  fun name' key' => if name' = name ∧ key' = key then some value else kf name' key'

/-- A library that sets the values as they are. -/
def plainKeyFileLib (loadFromData : Bytes → Option KeyFile) : KeyFileLib where
  loadFromData := loadFromData
  setString := KeyFile.set
  setInt := fun kf name key value => kf.set name key (decimal value)
  setBool := fun kf name key value => kf.set name key (flagText value)

/-- Such a library that finds no content in any data. -/
def unparsed : KeyFileLib := plainKeyFileLib fun _ => none

/-- It does what is relied on. The runs on concrete requests use it. -/
theorem plainKeyFileLib_faithful (loadFromData : Bytes → Option KeyFile) :
    (plainKeyFileLib loadFromData).Faithful where
  setString_self := fun _ _ _ _ => if_pos ⟨rfl, rfl⟩
  setString_of_ne := fun _ _ _ _ _ _ hne => if_neg hne
  setInt_eq := fun _ _ _ _ => rfl
  setBool_eq := fun _ _ _ _ => rfl

/-- All libraries that do it set strings in the same way. The values that a request sets are
therefore stated without a library. -/
theorem KeyFileLib.Faithful.setString_eq {lib : KeyFileLib} (h : lib.Faithful) (kf : KeyFile)
    (name key value : Bytes) : lib.setString kf name key value = kf.set name key value := by
  funext name' key'
  unfold KeyFile.set
  split_ifs with hkey
  · obtain ⟨rfl, rfl⟩ := hkey
    exact h.setString_self kf _ _ value
  · exact h.setString_of_ne kf name key value name' key' hkey

/-- The section that the service writes to. -/
def pwdConfSection : Bytes := bytes "Password"

/-- The calls that change the configuration, with their arguments. -/
inductive Request where
  | setLengthLimit (minLength maxLength : ℤ)
  | setValidatePolicy (validatePolicy : Bytes)
  | setValidateRequired (validateRequired : ℤ)
  | setEnabled (enable : Bool)
  | setFirstLetterUpper (enable : Bool)
  | writeConfig (data : Bytes)
  deriving DecidableEq

/-- What the handler of a `Set` call does to the loaded key file. -/
def Request.change (lib : KeyFileLib) (kf : KeyFile) : Request → KeyFile
  | setLengthLimit minLength maxLength =>
      lib.setInt (lib.setInt kf pwdConfSection (bytes "PASSWORD_MIN_LENGTH") minLength)
        pwdConfSection (bytes "PASSWORD_MAX_LENGTH") maxLength
  | setValidatePolicy validatePolicy =>
      lib.setString kf pwdConfSection (bytes "VALIDATE_POLICY") validatePolicy
  | setValidateRequired validateRequired =>
      lib.setInt kf pwdConfSection (bytes "VALIDATE_REQUIRED") validateRequired
  | setEnabled enable => lib.setBool kf pwdConfSection (bytes "STRONG_PASSWORD") enable
  | setFirstLetterUpper enable =>
      lib.setBool kf pwdConfSection (bytes "FIRST_LETTER_UPPERCASE") enable
  | writeConfig _ => kf

/-- The effect of a request on the content of the file. -/
def Request.apply (lib : KeyFileLib) (request : Request) (kf : KeyFile) : KeyFile :=
  match request with
  | writeConfig data => (lib.loadFromData data).getD kf
  | _ => request.change lib kf

/-- A handler loads the file, unless it writes data that it was given. -/
def Request.loads : Request → Bool
  | writeConfig _ => false
  | _ => true

/-- A handler that loads the file has the effect of its change. `WriteConfig` alone replaces the
whole content. -/
theorem Request.apply_of_loads {request : Request} (h : request.loads = true)
    (lib : KeyFileLib) (kf : KeyFile) :
    request.apply lib kf = request.change lib kf := by
  cases request with
  | writeConfig data => cases h
  | _ => rfl

end DeepinPwCheck
