import XamlAssist.Text.Parts

/-!
# Settings of a conversion
-/

namespace XamlAssist.Conversion

/-- How deep a conversion looks and which resources it tells apart. -/
structure Settings where
  /-- How many levels of generic arguments are resolved. -/
  maxGenericDepth : Nat := 8
  /-- How many types of a chain of base types are looked at. -/
  maxBaseDepth : Nat := 64
  /-- The endings of resources that get no address of their own. -/
  ignoredSuffixes : List String := [".resources", ".rd.xml", "!AvaloniaResources"]
  markupSuffixes : List String := [".xaml", ".axaml", ".paml"]
  imageSuffixes : List String := [".png", ".jpg", ".jpeg", ".bmp", ".gif", ".ico"]
  deriving DecidableEq, Repr

/-- Whether a name ends with one of the suffixes, up to the case of ASCII letters. -/
def hasSuffix (suffixes : List String) (name : String) : Bool :=
  suffixes.any fun suffix => Text.endsWithIgnoringCase suffix.toList name.toList

namespace Settings

def ignores (settings : Settings) (name : String) : Bool :=
  hasSuffix settings.ignoredSuffixes name

def isMarkup (settings : Settings) (path : String) : Bool :=
  hasSuffix settings.markupSuffixes path

def isImage (settings : Settings) (path : String) : Bool :=
  hasSuffix settings.imageSuffixes path

end Settings

end XamlAssist.Conversion
