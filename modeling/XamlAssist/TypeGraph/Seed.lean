import XamlAssist.GenericName
import XamlAssist.TypeGraph.Basic

/-!
# The types that every graph starts with

Types that markup knows without any library, and the directives and extensions of the `x:`
namespace. A library may describe some of them; its description then takes the place of the seed.
-/

namespace XamlAssist.TypeGraph

/-- The namespace of the directives. -/
def directiveNamespace : String := "http://schemas.microsoft.com/winfx/2006/xaml"

/-- The namespace that markup uses by default. -/
def defaultNamespace : String := "https://github.com/avaloniaui"

namespace Seed

def booleanName : String := "System.Boolean"
def stringName : String := "System.String"
def objectName : String := "System.Object"
def typeName : String := "System.Type"
def brushName : String := "Avalonia.Media.IBrush"
def bitmapName : String := "Avalonia.Media.Imaging.IBitmap"
def imageName : String := "Avalonia.Media.IImage"
def selectorName : String := "Avalonia.Styling.Selector"
def propertyName : String := "Avalonia.AvaloniaProperty"
def resourceUriName : String := "Avalonia.Resources.ResourceUri"
def markupUriName : String := "Avalonia.Resources.XamlResourceUri"
def imageUriName : String := "Avalonia.Resources.ImageResourceUri"

/-- The name behind the last dot. -/
def simpleName (fullName : String) : String :=
  String.ofList (Text.behindLast '.' fullName.toList)

/-- A type of the seed. -/
def builtin (fullName : String) : Node :=
  { Node.ofNames (simpleName fullName) fullName with isBuiltin := true }

/-- An interface of the seed. -/
def marker (fullName : String) : Node :=
  { builtin fullName with isInterface := true, isAbstract := true }

/-- The types outside the `x:` namespace. -/
def plainTypes : List Node :=
  [{ builtin booleanName with hints := ["True", "False"] },
   builtin stringName,
   builtin objectName,
   builtin typeName,
   { builtin GenericName.nullableDefinition with isGeneric := true, isNullable := true },
   marker brushName,
   marker bitmapName,
   marker imageName,
   builtin selectorName,
   builtin propertyName,
   builtin resourceUriName,
   builtin markupUriName,
   builtin imageUriName]

def booleanId : TypeId := 0
def stringId : TypeId := 1
def typeId : TypeId := 3
def nullableId : TypeId := 4
def brushId : TypeId := 5
def bitmapId : TypeId := 6
def imageId : TypeId := 7
def selectorId : TypeId := 8
def propertyId : TypeId := 9
def resourceUriId : TypeId := 10
def markupUriId : TypeId := 11
def imageUriId : TypeId := 12

/-- The directives with the types of their values. -/
def directives : List (String × TypeId) :=
  [("Class", stringId), ("Name", stringId), ("Key", stringId), ("DataType", typeId),
   ("CompileBindings", booleanId), ("TypeArguments", stringId), ("FieldModifier", stringId),
   ("Shared", booleanId)]

/-- The extensions with their constructor arguments. -/
def extensions : List (String × ConstructorArgument) :=
  [("Type", .typeName), ("Null", .nothing), ("Static", .object)]

def directive (name : String) (value : TypeId) : Node :=
  { builtin ("x:" ++ name) with name, isDirective := true, underlying := some value }

def extension (name : String) (argument : ConstructorArgument) : Node :=
  { builtin ("x:" ++ name ++ "Extension") with
    name, isMarkupExtension := true, constructorArgument := argument }

/-- Adds a type and registers it in the `x:` namespace. -/
def addToDirectives (graph : TypeGraph) (name : String) (node : Node) : TypeGraph :=
  (graph.add node).register directiveNamespace name graph.types.length

end Seed

open Seed in
/-- The graph of the types that need no library. -/
def seed : TypeGraph :=
  let plain := plainTypes.foldl add {}
  let withDirectives := directives.foldl
    (fun graph (name, value) => addToDirectives graph name (directive name value)) plain
  extensions.foldl
    (fun graph (name, argument) => addToDirectives graph name (extension name argument))
    withDirectives

end XamlAssist.TypeGraph
