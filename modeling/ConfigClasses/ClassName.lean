import ConfigClasses.Text.Lowercase

namespace ConfigClasses.ClassName

def unqualified : List Char → List Char
  | ':' :: ':' :: cs => unqualified cs
  | cs => cs

def normalize (name : String) : String :=
  String.ofList (Text.lowercase (unqualified name.toList))

end ConfigClasses.ClassName
